import Mathlib

/-!
# Event systems

A system is given by its initial states and by a partial function that takes an
event.  A discipline says which events may happen where, so that the same system
can be run with and without an assumption on its users.
-/

namespace DragonFly

variable {σ ε : Type}

/-- The states reached by events of a discipline. -/
inductive Reachable (start : σ → Prop) (allow : σ → ε → Prop)
    (next : σ → ε → Option σ) : σ → Prop
  | start (hstart : start s) : Reachable start allow next s
  | step (hreach : Reachable start allow next s) (hallow : allow s e) (hnext : next s e = some s') :
      Reachable start allow next s'

/-- A run that takes every event of a list, as long as they are allowed. -/
def runEvents (allow : σ → ε → Prop) [∀ s e, Decidable (allow s e)]
    (next : σ → ε → Option σ) (s : σ) : List ε → Option σ
  | [] => some s
  | e :: events =>
    if allow s e then (next s e).bind fun s' => runEvents allow next s' events
    else none

namespace Reachable

variable {start : σ → Prop} {allow : σ → ε → Prop}
  {next : σ → ε → Option σ}

/-- A property of the initial states that every allowed event keeps holds in all
reachable states. -/
theorem invariant (inv : σ → Prop) (hstart : ∀ s, start s → inv s)
    (hstep : ∀ s e s', inv s → allow s e → next s e = some s' → inv s')
    (h : Reachable start allow next s) : inv s := by
  induction h with
  | start hs => exact hstart _ hs
  | step _ hallow hnext ih => exact hstep _ _ _ ih hallow hnext

theorem run [∀ s e, Decidable (allow s e)] (h : Reachable start allow next s)
    (hrun : runEvents allow next s events = some s') : Reachable start allow next s' := by
  induction events generalizing s with
  | nil =>
    simp only [runEvents, Option.some.injEq] at hrun
    rw [← hrun]
    exact h
  | cons e events ih =>
    rw [runEvents] at hrun
    split_ifs at hrun with hallow
    rw [Option.bind_eq_some_iff] at hrun
    obtain ⟨mid, hmid, hrest⟩ := hrun
    exact ih (.step h hallow hmid) hrest

/-- A run of which only a view of its last state has been computed. -/
theorem view [∀ s e, Decidable (allow s e)] (h : Reachable start allow next s)
    (hrun : (runEvents allow next s events).map f = some v) :
    ∃ s', Reachable start allow next s' ∧ f s' = v := by
  obtain ⟨s', hs, hv⟩ := Option.map_eq_some_iff.mp hrun
  exact ⟨s', h.run hs, hv⟩

end Reachable

/-! ## Step functions

A step that has been taken went through one of the branches of its function. -/

section Branches

variable {α β : Type} {c : Prop} [Decidable c] {a b o : α} {P : α → Prop}

theorem of_ite_some
    (h : (if c then some a else some b) = some o) (ha : c → P a) (hb : ¬c → P b) : P o := by
  split_ifs at h with hc
  · cases h
    exact ha hc
  · cases h
    exact hb hc

theorem of_guard_some (h : (if c then some a else none) = some o) (ha : c → P a) : P o := by
  split_ifs at h with hc
  cases h
  exact ha hc

end Branches

end DragonFly
