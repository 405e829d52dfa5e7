import DragonFly.LockmgrExclusion

/-!
# What is left in an idle lock

An upgrade request belongs to the thread that set it, until that thread takes up the
grant or undoes the request.  The first sleep of `LK_UPGRADE` returns without undoing
when it ends with an error, and then the request belongs to nobody.
-/

namespace DragonFly.Lockmgr

open State

variable {T : Type}

/-- The end of a sleep that leaves an upgrade request behind. -/
def State.Leaves (s : State T) : T × Input → Prop
  | (t, .wake result) => Abandons (s.pc t) result
  | (_, .call _) | (_, .step) => False

instance (p : Pc) (result : Option Errno) : Decidable (Abandons p result) :=
  match p with
  | .asleep f (.request false) =>
    decidable_of_iff ((sleepError f result).isSome = true)
      ⟨fun h => ⟨f, rfl, h⟩, by rintro ⟨f', heq, h⟩; cases heq; exact h⟩
  | .asleep _ (.request true) | .asleep _ .plain | .asleep _ .grant | .idle _ | .again _
  | .readHolder _ _ | .cmpset _ _ _ | .recurse _ | .setHolder _ | .clearHolder _ _ _
  | .restoreHolder _ _ | .undo _ | .panicked =>
    .isFalse (by rintro ⟨f', heq, _⟩; cases heq)

instance (s : State T) (e : T × Input) : Decidable (s.Leaves e) :=
  match e with
  | (t, .wake result) => inferInstanceAs (Decidable (Abandons (s.pc t) result))
  | (_, .call _) | (_, .step) => instDecidableFalse

/-- Somebody waits for the request or the grant. -/
def State.Attended (s : State T) : Prop :=
  s.count.upreq = true ∨ s.count.upgrant = true → ∃ t, (s.pc t).owner = true

variable [Fintype T] [DecidableEq T]

/-- No first sleep of `LK_UPGRADE` ends with an error, and `LKC_MASK` can count the holds. -/
def Attentive (s : State T) (e : T × Input) : Prop :=
  ¬ s.Leaves e ∧ Bounded s e

instance (s : State T) (e : T × Input) : Decidable (Attentive s e) :=
  inferInstanceAs (Decidable (_ ∧ _))

namespace State

variable {s : State T}

theorem Attended.set (h : s.Attended) (hok : s.Ok)
    (hperforms : Performs t (core s.count s.holder (s.held t) (s.pc t)) o) :
    (s.set t o).Attended := by
  intro hbit
  obtain ⟨v, hv⟩ := hok.sound.attended h hperforms.1 hbit
  exact ⟨v, (congrFun (s.owner_set t o) v).trans hv⟩

theorem Attended.act (h : s.Attended) (hok : s.Ok) (hkept : ¬ s.Leaves e)
    (hact : s.act e.1 e.2 = some s') (hbound : s'.holds ≤ lkcMask) : s'.Attended := by
  obtain ⟨t, input⟩ := e
  cases input with
  | call r =>
    simp only [State.act] at hact
    split at hact
    · next result hidle =>
        split_ifs at hact
        cases hact
        intro hbit
        obtain ⟨v, hv⟩ := h hbit
        refine ⟨v, ?_⟩
        have hvt : v ≠ t := by
          intro heq
          rw [heq, hidle] at hv
          cases hv
        simp only [Function.update_of_ne hvt]
        exact hv
    · cases hact
  | step =>
    simp only [State.act, Option.map_eq_some_iff] at hact
    obtain ⟨o, hstep, rfl⟩ := hact
    exact h.set hok (hok.performs hstep hbound)
  | wake result =>
    simp only [State.act] at hact
    split at hact
    · next f sleep hpc =>
        cases hact
        apply h.set hok
        simp only [State.Leaves, hpc] at hkept
        rw [hpc]
        exact performs_of_wake (hpc ▸ hok.knows t) hkept
    · cases hact

end State

theorem attended_of_runs {s : State T} (h : Runs Attentive s) : s.Ok ∧ s.Attended := by
  apply h.invariant fun s => s.Ok ∧ s.Attended
  · rintro s rfl
    refine ⟨initial_ok, ?_⟩
    rintro (hbit | hbit)
    · cases hbit
    · cases hbit
  · rintro s e s' ⟨hok, hattended⟩ ⟨hkept, hbounded⟩ hnext
    have hholds := hbounded s' hnext
    rw [next, Option.map_eq_some_iff] at hnext
    obtain ⟨mid, hact, rfl⟩ := hnext
    have hmid : mid.Ok := hok.act hact hholds
    have hwaited : mid.Attended := hattended.act hok hkept hact hholds
    exact ⟨⟨hmid.sound, hmid.exclusive, hmid.knows⟩, hwaited⟩

/-- A lock that nobody holds and nobody works on has no bits of a holder or an upgrade. -/
theorem nothing_left_behind
    {s : State T} (h : Runs Attentive s) (hidle : ∀ t, ∃ result, s.pc t = .idle result)
    (hfree : ∀ t, s.held t = ⟨0, 0⟩) :
    s.count.excl = false ∧ s.count.upreq = false ∧ s.count.upgrant = false ∧ s.count.mask = 0 := by
  obtain ⟨hok, hattended⟩ := attended_of_runs h
  have hbits : ¬ (s.count.upreq = true ∨ s.count.upgrant = true) := by
    intro hbit
    obtain ⟨t, ht⟩ := hattended hbit
    obtain ⟨result, hpc⟩ := hidle t
    rw [hpc] at ht
    cases ht
  rw [not_or, Bool.not_eq_true, Bool.not_eq_true] at hbits
  obtain ⟨hupreq, hupgrant⟩ := hbits
  have hheld : s.held = fun _ => ⟨0, 0⟩ := funext hfree
  have hmask : s.count.mask = 0 := by
    have hcount := mask_eq hok.sound.accounts
    have hzero : total (fun h : Held => h.ex + h.sh) (fun _ : T => ⟨0, 0⟩) = 0 := total_eq_zero rfl
    rw [hheld, hupgrant, hzero] at hcount
    exact hcount
  refine ⟨?_, hupreq, hupgrant, hmask⟩
  cases hexcl : s.count.excl with
  | false => rfl
  | true => exact absurd hmask (hok.exclusive hexcl)

/-- The second sleep of an upgrade fails, and the request is undone. -/
theorem nothing_left_by_an_undone_upgrade :
    ∃ s : State (Fin 2), Runs Attentive s ∧ s.pc 0 = .idle (some .interrupted) ∧
      s.count.upreq = false ∧ s.count.mask = 0 := by
  have hrun : ((runEvents Attentive next (initial : State (Fin 2))
      [(0, .call (.plain .shared)), (0, .step), (0, .step), (1, .call (.plain .shared)),
        (1, .step), (1, .step), (0, .call (.plain .upgrade)), (0, .step), (0, .step),
        (0, .wake none), (0, .step), (0, .step), (0, .wake (some .interrupted)), (0, .step),
        (0, .step), (1, .call (.plain .release)), (1, .step), (1, .step)]).map
          fun s => (s.pc 0, s.pc 1, s.held 0, s.held 1)) =
      some (.idle (some .interrupted), .idle none, ⟨0, 0⟩, ⟨0, 0⟩) := by
    decide +kernel
  have hstart : Runs Attentive (initial : State (Fin 2)) := .start rfl
  obtain ⟨s, hruns, hview⟩ := hstart.view hrun
  rw [Prod.mk.injEq, Prod.mk.injEq, Prod.mk.injEq] at hview
  obtain ⟨hpc, hother, hheld, hnone⟩ := hview
  have hidle : ∀ t, ∃ result, s.pc t = .idle result := Fin.forall_fin_two.mpr ⟨⟨_, hpc⟩, _, hother⟩
  have hfree : ∀ t, s.held t = ⟨0, 0⟩ := Fin.forall_fin_two.mpr ⟨hheld, hnone⟩
  obtain ⟨_, hupreq, _, hmask⟩ := nothing_left_behind hruns hidle hfree
  exact ⟨s, hruns, hpc, hupreq, hmask⟩

/-- The first sleep fails.  The last release grants the lock to a thread that has gone. -/
theorem grant_left_behind :
    ∃ s : State (Fin 2), Runs Bounded s ∧ (∀ t, ∃ result, s.pc t = .idle result) ∧
      (∀ t, s.held t = ⟨0, 0⟩) ∧ s.count = ⟨false, false, false, true, true, 1⟩ := by
  have hrun : ((runEvents Bounded next (initial : State (Fin 2))
      [(0, .call (.plain .shared)), (0, .step), (0, .step), (1, .call (.plain .shared)),
        (1, .step), (1, .step), (0, .call (.plain .upgrade)), (0, .step), (0, .step),
        (0, .wake (some .interrupted)), (1, .call (.plain .release)), (1, .step),
        (1, .step)]).map fun s => (s.pc 0, s.pc 1, s.held 0, s.held 1, s.count)) =
      some (.idle (some .interrupted), .idle none, ⟨0, 0⟩, ⟨0, 0⟩,
        ⟨false, false, false, true, true, 1⟩) := by
    decide +kernel
  have hstart : Runs Bounded (initial : State (Fin 2)) := .start rfl
  obtain ⟨s, hreach, hview⟩ := hstart.view hrun
  rw [Prod.mk.injEq, Prod.mk.injEq, Prod.mk.injEq, Prod.mk.injEq] at hview
  obtain ⟨hpc, hother, hheld, hnone, hcount⟩ := hview
  exact ⟨s, hreach, Fin.forall_fin_two.mpr ⟨⟨_, hpc⟩, _, hother⟩,
    Fin.forall_fin_two.mpr ⟨hheld, hnone⟩, hcount⟩

end DragonFly.Lockmgr
