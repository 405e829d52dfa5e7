import DragonFly.LockmgrActs

/-!
# The course of an upgrade

A call of `LK_EXCLUPGRADE` that can still succeed has a hold or owns the upgrade
request, so nobody else gets the lock exclusively before it does.  An error that is
known is not forgotten.
-/

namespace DragonFly.Lockmgr

namespace Pc

/-- The error that a thread will return, as far as it is known; a panic never returns. -/
def error : Pc → Option Errno
  | .idle result => result
  | .again f | .readHolder f _ | .cmpset f _ _ | .recurse f | .setHolder f => f.error
  | .clearHolder f _ _ | .restoreHolder f _ | .asleep f _ | .undo f => f.error
  | .panicked => some .ebusy

/-- Where a call of `LK_EXCLUPGRADE` stands as long as it may succeed. -/
def Pursues : Pc → Prop
  | .again f => f.type = .exclupgrade ∨ f.type = .waitupgrade
  | .readHolder f _ => f.type = .exclupgrade
  | .cmpset f _ .upgrade => f.type = .exclupgrade
  | .cmpset f count .request => f.type = .exclupgrade ∧ count.upreq = false
  | .cmpset f _ .takeGrant | .cmpset f _ .checkGrant => f.type = .waitupgrade
  | .asleep _ sleep => sleep = .request false ∨ sleep = .grant
  | .setHolder _ | .idle _ => True
  | _ => False

end Pc

variable {deed : Deed} {sleep : Sleep} {result : Option Errno} {T : Type} {h : Held} {p : Pc}

section Errors

variable {f : Frame} {count : LockCount}

theorem error_lkUpgrade (h : (lkUpgrade f count).error = none) : f.error = none := by
  unfold lkUpgrade at h
  split_ifs at h
  · exact h
  · exact h
  · cases h
  · cases h
  · exact h

theorem error_switch (h : (lockmgrSwitch f count).error = none) : f.error = none := by
  unfold lockmgrSwitch at h
  cases htype : f.type with
  | shared =>
    simp only [htype, lkShared] at h
    split_ifs at h
    · exact h
    · exact h
  | exclusive =>
    simp only [htype, lkExclusive] at h
    split_ifs at h
    · exact h
    · exact h
  | upgrade =>
    simp only [htype] at h
    exact error_lkUpgrade h
  | exclupgrade =>
    simp only [htype, lkExclupgrade] at h
    split_ifs at h
    · cases h
    · exact error_lkUpgrade h
  | downgrade =>
    simp only [htype] at h
    exact h
  | release =>
    simp only [htype, lkRelease] at h
    split_ifs at h
    · cases h
    · exact h
    · exact h
    · exact h
    · exact h
  | waitupgrade =>
    simp only [htype, lkWaitupgrade] at h
    split_ifs at h
    · exact h
    · exact h

theorem error_lockAgainstMyself (h : (lockAgainstMyself f count).error = none) :
    f.error = none := by
  unfold lockAgainstMyself at h
  split_ifs at h
  · cases h
  · cases h
  · cases h
  · exact h

theorem error_afterHolder (h : (afterHolder f count mine).error = none) : f.error = none := by
  unfold afterHolder at h
  cases htype : f.type with
  | shared =>
    simp only [htype] at h
    split_ifs at h
    · exact error_lockAgainstMyself h
    · cases h
    · exact h
    · exact h
  | exclusive =>
    simp only [htype] at h
    split_ifs at h
    · exact error_lockAgainstMyself h
    · cases h
    · exact h
  | downgrade =>
    simp only [htype] at h
    split_ifs at h
    · cases h
    · exact h
  | upgrade | exclupgrade =>
    simp only [htype] at h
    split_ifs at h
    · exact h
    · cases h
  | release =>
    simp only [htype] at h
    split_ifs at h
    · cases h
    · exact h
    · exact h
    · exact h
  | waitupgrade =>
    simp only [htype] at h
    cases h

theorem error_success (h : (deed.success f count).error = none) : f.error = none := by
  cases deed with
  | takeGrant =>
    simp only [Deed.success] at h
    split_ifs at h
    · exact h
    · cases h
  | _ => exact h

theorem error_failure (h : (deed.failure f count).error = none) : f.error = none := by
  cases deed with
  | releaseLast | releaseGrant =>
    simp only [Deed.failure] at h
    split_ifs at h
    · exact h
    · exact h
  | _ => exact h

theorem error_afterSleep (h : (afterSleep f sleep result).error = none) :
    sleepError f result = none ∧ f.error = none := by
  unfold afterSleep at h
  cases herror : sleepError f result with
  | none =>
    simp only [herror] at h
    cases sleep <;> exact ⟨rfl, h⟩
  | some e =>
    simp only [herror] at h
    cases sleep <;> cases h

theorem error_of_step [DecidableEq T] {o : Outcome T} (hstep : step t count holder h p = some o)
    (herror : o.pc.error = none) : p.error = none := by
  cases p with
  | idle _ | asleep _ _ | panicked => cases hstep
  | again f =>
    cases hstep
    exact error_switch herror
  | readHolder f c =>
    cases hstep
    exact error_afterHolder herror
  | cmpset f c deed =>
    rw [step] at hstep
    split_ifs at hstep
    · cases hstep
      exact error_success herror
    · cases hstep
      exact error_failure herror
  | recurse f | setHolder f | clearHolder f _ _ =>
    cases hstep
    exact herror
  | restoreHolder f deed =>
    cases hstep
    cases deed <;> exact herror
  | undo f =>
    cases hstep
    simp only [afterUndoRead] at herror
    split_ifs at herror
    · exact herror
    · exact herror
    · cases herror

end Errors

section Pursuit

variable {f : Frame} {count : LockCount}

theorem pursues_lkUpgrade (htype : f.type = .exclupgrade) (hupreq : count.upreq = false)
    (h : (lkUpgrade f count).error = none) : (lkUpgrade f count).Pursues := by
  unfold lkUpgrade at h ⊢
  split_ifs at h ⊢
  · exact htype
  · exact htype
  · cases h
  · cases h
  · exact ⟨htype, hupreq⟩

theorem pursues_switch (htype : f.type = .exclupgrade ∨ f.type = .waitupgrade)
    (h : (lockmgrSwitch f count).error = none) : (lockmgrSwitch f count).Pursues := by
  unfold lockmgrSwitch at h ⊢
  rcases htype with htype | htype
  · simp only [htype, lkExclupgrade] at h ⊢
    split_ifs at h ⊢ with hupreq
    · cases h
    · exact pursues_lkUpgrade htype (Bool.eq_false_iff.mpr hupreq) h
  · simp only [htype, lkWaitupgrade]
    split_ifs
    · exact htype
    · exact htype

theorem pursues_success (hpursues : (Pc.cmpset f count deed).Pursues)
    (h : (deed.success f count).error = none) : (deed.success f count).Pursues := by
  cases deed with
  | upgrade => trivial
  | request => exact .inl (congrArg Sleep.request hpursues.2)
  | takeGrant =>
    simp only [Deed.success] at h ⊢
    split_ifs at h ⊢
    · trivial
    · cases h
  | checkGrant => exact .inr rfl
  | _ => exact hpursues.elim

theorem pursues_failure (hpursues : (Pc.cmpset f count deed).Pursues) :
    (deed.failure f count).Pursues := by
  cases deed with
  | upgrade => exact .inl hpursues
  | request => exact .inl hpursues.1
  | takeGrant | checkGrant => exact .inr hpursues
  | _ => exact hpursues.elim

theorem pursues_of_step [DecidableEq T] {o : Outcome T} (hstep : step t count holder h p = some o)
    (hpursues : p.Pursues) (herror : o.pc.error = none) : o.pc.Pursues := by
  cases p with
  | idle _ | asleep _ _ | panicked => cases hstep
  | again f =>
    cases hstep
    exact pursues_switch hpursues herror
  | readHolder f c =>
    cases hstep
    have htype : f.type = .exclupgrade := hpursues
    simp only [afterHolder, htype] at herror ⊢
    split_ifs at herror ⊢
    · trivial
    · cases herror
  | cmpset f c deed =>
    rw [step] at hstep
    split_ifs at hstep
    · cases hstep
      exact pursues_success hpursues herror
    · cases hstep
      exact pursues_failure hpursues
  | setHolder f =>
    cases hstep
    trivial
  | recurse f | clearHolder f _ _ | restoreHolder f _ | undo f => exact hpursues.elim

theorem pursues_of_wake
    (htype : sleep = .grant → f.type = .waitupgrade) (hpursues : (Pc.asleep f sleep).Pursues)
    (herror : (afterSleep f sleep result).error = none) : (afterSleep f sleep result).Pursues := by
  obtain ⟨hsleep, _⟩ := error_afterSleep herror
  unfold afterSleep
  rw [hsleep]
  rcases hpursues with rfl | rfl
  · exact .inr rfl
  · exact .inr (htype rfl)

theorem holding_of_pursues (hpursues : p.Pursues) (hknows : p.Knows t holder h)
    (hbusy : ∀ result, p ≠ .idle result) : 0 < h.ex + h.sh ∨ p.owner = true := by
  cases p with
  | idle result => exact absurd rfl (hbusy result)
  | again f =>
    rcases hpursues with htype | htype
    · simp only [Pc.Knows, htype] at hknows
      exact .inl hknows
    · exact .inr (decide_eq_true htype)
  | readHolder f c =>
    have hneeds := hknows.1.2
    rw [show f.type = .exclupgrade from hpursues] at hneeds
    exact .inl hneeds
  | cmpset f c deed =>
    cases deed with
    | upgrade | request => exact .inl hknows.2.2.2.2
    | takeGrant | checkGrant => exact .inr rfl
    | _ => exact hpursues.elim
  | setHolder f =>
    have hex : 0 < h.ex := hknows
    exact .inl (by omega)
  | asleep f sleep =>
    rcases hpursues with rfl | rfl
    · exact .inr rfl
    · exact .inr rfl
  | recurse f | clearHolder f _ _ | restoreHolder f _ | undo f | panicked =>
    exact hpursues.elim

end Pursuit

section Others

variable {T : Type} {t u : T}

theorem Act.holder_of_ne (hact : Act t c c') (hu : u ≠ t) (hholder : c'.holder = some u) :
    c.holder = some u := by
  cases hact with
  | setHolder _ => exact absurd (Option.some.inj hholder).symm hu
  | clearHolder => cases hholder
  | _ => exact hholder

theorem Pc.Knows.of_holder (hknows : p.Knows t o h) (hholder : o' = some t → o = some t) :
    p.Knows t o' h := by
  cases p with
  | cmpset f c deed =>
    refine ⟨hknows.1, ?_⟩
    have hready := hknows.2
    cases deed with
    | downgrade =>
      obtain ⟨hexcl, hmask, hex, ho⟩ := hready
      exact ⟨hexcl, hmask, hex, fun heq => ho (hholder heq)⟩
    | releaseLast =>
      obtain ⟨hupreq, hmask, hheld, ho⟩ := hready
      exact ⟨hupreq, hmask, hheld, fun hset => ⟨(ho hset).1, fun heq => (ho hset).2 (hholder heq)⟩⟩
    | _ => exact hready
  | asleep f sleep => cases sleep <;> exact hknows
  | _ => exact hknows

end Others

end DragonFly.Lockmgr
