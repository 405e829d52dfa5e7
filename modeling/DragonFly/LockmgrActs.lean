import DragonFly.LockmgrModel

/-!
# Acts on a lock

What the accounts of a lock depend on, and the changes that a step makes to it.  The
bits that ask for a wakeup do not matter.  A thread owns the upgrade request from the
compare and set that sets `LKC_UPREQ` until it has taken up the grant or undone the
request.
-/

namespace DragonFly.Lockmgr

structure Core (T : Type) where
  upreq : Bool
  excl : Bool
  upgrant : Bool
  mask : ℕ
  holder : Option T
  held : Held
  owner : Bool

/-- The points at which a thread has an upgrade request or its grant. -/
def Pc.owner : Pc → Bool
  | .again f => f.type = .waitupgrade
  | .cmpset _ _ .takeGrant | .cmpset _ _ .checkGrant => true
  | .cmpset _ _ .undoGrant | .cmpset _ _ .undoRequest => true
  | .asleep _ (.request upreq) => !upreq
  | .asleep _ .grant => true
  | .undo _ => true
  | _ => false

variable {T : Type}

def core (count : LockCount) (holder : Option T) (h : Held) (p : Pc) : Core T :=
  ⟨count.upreq, count.excl, count.upgrant, count.mask, holder, h, p.owner⟩

/-- A hold is given back, of the kind that the lock is in. -/
def Held.drop (h : Held) (excl : Bool) : Held :=
  if excl then { h with ex := h.ex - 1 } else { h with sh := h.sh - 1 }

inductive Act (t : T) : Core T → Core T → Prop
  | quiet : Act t c c
  | share :
      Act t ⟨u, false, g, m, o, h, w⟩ ⟨u, false, g, m + 1, o, { h with sh := h.sh + 1 }, w⟩
  | recurse (hex : 0 < h.ex) :
      Act t ⟨u, x, g, m, o, h, w⟩ ⟨u, x, g, m + 1, o, { h with ex := h.ex + 1 }, w⟩
  | acquire :
      Act t ⟨false, false, false, 0, o, h, w⟩
        ⟨false, true, false, 1, o, { h with ex := h.ex + 1 }, w⟩
  | setHolder (hex : 0 < h.ex) :
      Act t ⟨u, x, g, m, o, h, w⟩ ⟨u, x, g, m, some t, h, w⟩
  | clearHolder :
      Act t ⟨u, x, g, m, o, h, w⟩ ⟨u, x, g, m, none, h, w⟩
  | downgrade (hex : 0 < h.ex) (ho : o ≠ some t) :
      Act t ⟨u, true, g, 1, o, h, w⟩ ⟨u, false, g, 1, o, ⟨h.ex - 1, h.sh + 1⟩, w⟩
  | upgrade (hheld : 0 < h.ex + h.sh) :
      Act t ⟨false, false, g, 1, o, h, w⟩ ⟨false, true, g, 1, o, ⟨h.ex + 1, h.sh - 1⟩, w⟩
  | request (hheld : 0 < h.ex + h.sh) (hm : 2 ≤ m) :
      Act t ⟨false, false, g, m, o, h, false⟩
        ⟨true, false, g, m - 1, o, { h with sh := h.sh - 1 }, true⟩
  | grant (hheld : 0 < h.ex + h.sh) :
      Act t ⟨true, false, g, 1, o, h, w⟩ ⟨false, true, true, 1, o, { h with sh := h.sh - 1 }, w⟩
  | take :
      Act t ⟨u, x, true, m, o, h, true⟩ ⟨u, x, false, m, o, { h with ex := h.ex + 1 }, false⟩
  | cancel :
      Act t ⟨true, x, false, m, o, h, true⟩ ⟨false, x, false, m, o, h, false⟩
  | last (hheld : 0 < h.ex + h.sh) (ho : x = true → o ≠ some t) :
      Act t ⟨false, x, g, 1, o, h, w⟩ ⟨false, false, g, 0, o, h.drop x, w⟩
  | drop (hheld : 0 < h.ex + h.sh) (hm : 2 ≤ m) :
      Act t ⟨u, x, g, m, o, h, w⟩ ⟨u, x, g, m - 1, o, h.drop x, w⟩

def Needs (h : Held) : LockType → Prop
  | .upgrade | .exclupgrade | .release => 0 < h.ex + h.sh
  | _ => True

/-- What a thread knows in front of a compare and set. -/
def Deed.Ready (t : T) (holder : Option T) (h : Held) (count : LockCount) : Deed → Prop
  | .share => count.excl = false
  | .acquire => count = .zero
  | .downgrade => count.excl = true ∧ count.mask = 1 ∧ 0 < h.ex ∧ holder ≠ some t
  | .upgrade =>
    count.upreq = false ∧ count.excl = false ∧ count.mask = 1 ∧ 0 < h.ex + h.sh
  | .request =>
    count.excl = false ∧ count.mask ≠ 0 ∧ (count.upreq = false → count.mask ≠ 1) ∧ 0 < h.ex + h.sh
  | .takeGrant => count.upgrant = true
  | .undoGrant => count.upgrant = true
  | .undoRequest => count.upgrant = false ∧ count.upreq = true
  | .releaseLast =>
    count.upreq = false ∧ count.mask = 1 ∧ 0 < h.ex + h.sh ∧
      (count.excl = true → 0 < h.ex ∧ holder ≠ some t)
  | .releaseGrant =>
    count.upreq = true ∧ count.excl = false ∧ count.mask = 1 ∧ 0 < h.ex + h.sh
  | .releaseOne => 2 ≤ count.mask ∧ 0 < h.ex + h.sh
  | .waitShared | .waitExclusive | .checkGrant => True

/-- A frame of one of the caller's own types, with what it takes for granted. -/
def Frame.Fair (f : Frame) (h : Held) : Prop :=
  f.type ≠ .waitupgrade ∧ Needs h f.type

def Deed.Suits (f : Frame) (h : Held) : Deed → Prop
  | .takeGrant | .checkGrant => f.type = .waitupgrade
  | .undoGrant | .undoRequest => True
  | _ => f.Fair h

def Pc.Knows (t : T) (holder : Option T) (h : Held) : Pc → Prop
  | .again f => Needs h f.type
  | .readHolder f count =>
    f.Fair h ∧ (count.upreq = true → count.excl = false) ∧
      match f.type with
      | .release => count.excl = true ∧ count.mask ≠ 0
      | _ => True
  | .cmpset f count deed => deed.Suits f h ∧ deed.Ready t holder h count
  | .recurse _ => 0 < h.ex
  | .setHolder _ => 0 < h.ex
  | .clearHolder f count deed =>
    f.Fair h ∧ (deed = .downgrade ∨ deed = .releaseLast ∧ count.upreq = false) ∧
      count.excl = true ∧ count.mask = 1 ∧ 0 < h.ex
  | .restoreHolder f deed => f.Fair h ∧ 0 < h.ex ∧ deed ≠ .releaseGrant
  | .asleep f .plain => f.Fair h
  | .asleep f .grant => f.type = .waitupgrade
  | .asleep _ (.request _) | .undo _ | .idle _ | .panicked => True

/-- A point that a thread goes on to, with the ownership it comes from. -/
def Follows (t : T) (holder : Option T) (h : Held) (owner : Bool) (p : Pc) : Prop :=
  p.owner = owner ∧ p.Knows t holder h

section Switch

variable {t : T} {holder : Option T} {h : Held} {f : Frame} {count : LockCount}

theorem lkShared_follows
    (htype : f.type = .shared) (hupreq : count.upreq = true → count.excl = false) :
    Follows t holder h false (lkShared f count) := by
  have hfair : f.Fair h := by rw [Frame.Fair, htype]; exact ⟨nofun, trivial⟩
  unfold lkShared
  split_ifs with hfree
  · simp only [Bool.and_eq_true, Bool.not_eq_true'] at hfree
    exact ⟨rfl, hfair, hfree.2⟩
  · refine ⟨rfl, hfair, hupreq, ?_⟩
    rw [htype]
    trivial

theorem lkExclusive_follows
    (htype : f.type = .exclusive) (hupreq : count.upreq = true → count.excl = false) :
    Follows t holder h false (lkExclusive f count) := by
  have hfair : f.Fair h := by rw [Frame.Fair, htype]; exact ⟨nofun, trivial⟩
  unfold lkExclusive
  split_ifs with hzero
  · exact ⟨rfl, hfair, hzero⟩
  · refine ⟨rfl, hfair, hupreq, ?_⟩
    rw [htype]
    trivial

theorem lkUpgrade_follows
    (htype : f.type = .upgrade ∨ f.type = .exclupgrade) (hheld : 0 < h.ex + h.sh)
    (hupreq : count.upreq = true → count.excl = false) :
    Follows t holder h false (lkUpgrade f count) := by
  have hfair : f.Fair h := by
    rcases htype with htype | htype <;> rw [Frame.Fair, htype] <;> exact ⟨nofun, hheld⟩
  unfold lkUpgrade
  split_ifs with hcritical hexcl hmask hnowait
  · simp only [Bool.and_eq_true, Bool.not_eq_true', beq_iff_eq] at hcritical
    exact ⟨rfl, hfair, hcritical.1.1, hcritical.1.2, hcritical.2, hheld⟩
  · refine ⟨rfl, hfair, hupreq, ?_⟩
    rcases htype with htype | htype <;> rw [htype] <;> trivial
  · exact ⟨rfl, trivial⟩
  · exact ⟨rfl, hheld⟩
  · simp only [Bool.not_eq_true] at hexcl
    refine ⟨rfl, hfair, hexcl, hmask, ?_, hheld⟩
    intro hno hone
    apply hcritical
    rw [hno, hexcl, hone]
    rfl

theorem lkRelease_follows (htype : f.type = .release) (hheld : 0 < h.ex + h.sh)
    (hupreq : count.upreq = true → count.excl = false) :
    Follows t holder h false (lkRelease f count) := by
  have hfair : f.Fair h := by rw [Frame.Fair, htype]; exact ⟨nofun, hheld⟩
  unfold lkRelease
  split_ifs with hmask hexcl hlast hgrant
  · exact ⟨rfl, trivial⟩
  · refine ⟨rfl, hfair, hupreq, ?_⟩
    rw [htype]
    exact ⟨hexcl, hmask⟩
  · simp only [Bool.and_eq_true, Bool.not_eq_true', beq_iff_eq] at hlast
    refine ⟨rfl, hfair, hlast.1, hlast.2, hheld, ?_⟩
    intro hset
    exact absurd hset hexcl
  · simp only [Bool.and_eq_true, beq_iff_eq] at hgrant
    exact ⟨rfl, hfair, hgrant.1, hupreq hgrant.1, hgrant.2, hheld⟩
  · refine ⟨rfl, hfair, ?_, hheld⟩
    have hone : count.mask ≠ 1 := by
      intro hone
      cases hset : count.upreq with
      | false => exact hlast (by rw [hset, hone]; rfl)
      | true => exact hgrant (by rw [hset, hone]; rfl)
    omega

theorem switch_follows
    (hneeds : Needs h f.type) (hupreq : count.upreq = true → count.excl = false) :
    Follows t holder h (Pc.again f).owner (lockmgrSwitch f count) := by
  unfold lockmgrSwitch
  have howner : (Pc.again f).owner = decide (f.type = .waitupgrade) := rfl
  rw [howner]
  cases htype : f.type with
  | shared => exact lkShared_follows htype hupreq
  | exclusive => exact lkExclusive_follows htype hupreq
  | upgrade =>
    rw [htype] at hneeds
    exact lkUpgrade_follows (.inl htype) hneeds hupreq
  | exclupgrade =>
    rw [htype] at hneeds
    simp only [lkExclupgrade]
    split_ifs with hset
    · exact ⟨rfl, hneeds⟩
    · exact lkUpgrade_follows (.inr htype) hneeds hupreq
  | downgrade =>
    refine ⟨rfl, ?_, hupreq, ?_⟩
    · rw [Frame.Fair, htype]
      exact ⟨nofun, trivial⟩
    · rw [htype]
      trivial
  | release =>
    rw [htype] at hneeds
    exact lkRelease_follows htype hneeds hupreq
  | waitupgrade =>
    simp only [lkWaitupgrade]
    split_ifs with hgrant
    · exact ⟨rfl, htype, hgrant⟩
    · exact ⟨rfl, htype, trivial⟩

theorem lockAgainstMyself_follows
    (hex : 0 < h.ex) : Follows t holder h false (lockAgainstMyself f count) := by
  unfold lockAgainstMyself
  split_ifs
  · exact ⟨rfl, trivial⟩
  · exact ⟨rfl, trivial⟩
  · exact ⟨rfl, trivial⟩
  · exact ⟨rfl, hex⟩

theorem afterHolder_follows (hknows : (Pc.readHolder f count).Knows t holder h)
    (hmine : mine = true → 0 < h.ex) : Follows t holder h false (afterHolder f count mine) := by
  obtain ⟨hfair, hupreq, hexcl⟩ := hknows
  unfold afterHolder
  cases htype : f.type with
  | shared =>
    simp only
    split_ifs with hme hbusy hnowait
    · exact lockAgainstMyself_follows (hmine hme)
    · exact ⟨rfl, trivial⟩
    · exact ⟨rfl, hfair, trivial⟩
    · refine ⟨rfl, hfair, ?_⟩
      simp only [Bool.or_eq_true, not_or, Bool.not_eq_true] at hbusy
      exact hbusy.1
  | exclusive =>
    simp only
    split_ifs with hme hnowait
    · exact lockAgainstMyself_follows (hmine hme)
    · exact ⟨rfl, trivial⟩
    · exact ⟨rfl, hfair, trivial⟩
  | downgrade =>
    simp only
    split_ifs with hbad
    · exact ⟨rfl, trivial⟩
    · simp only [Bool.or_eq_true, Bool.not_eq_true', bne_iff_ne, not_or, Bool.not_eq_false,
        not_not] at hbad
      exact ⟨rfl, hfair, .inl rfl, hbad.1.2, hbad.2, hmine hbad.1.1⟩
  | upgrade | exclupgrade =>
    simp only
    split_ifs
    · exact ⟨rfl, trivial⟩
    · exact ⟨rfl, trivial⟩
  | release =>
    rw [htype] at hexcl
    have hheld : 0 < h.ex + h.sh := by
      have hneeds := hfair.2
      rw [htype] at hneeds
      exact hneeds
    simp only
    split_ifs with hnot hlast hgrant
    · exact ⟨rfl, trivial⟩
    · simp only [Bool.not_eq_true', Bool.not_eq_false] at hnot
      simp only [Bool.and_eq_true, Bool.not_eq_true', beq_iff_eq] at hlast
      exact ⟨rfl, hfair, .inr ⟨rfl, hlast.1⟩, hexcl.1, hlast.2, hmine hnot⟩
    · simp only [Bool.and_eq_true, beq_iff_eq] at hgrant
      have hfalse := hupreq hgrant.1
      rw [hexcl.1] at hfalse
      cases hfalse
    · refine ⟨rfl, hfair, ?_, hheld⟩
      have hone : count.mask ≠ 1 := by
        intro hone
        cases hset : count.upreq with
        | false => exact hlast (by rw [hset, hone]; rfl)
        | true => exact hgrant (by rw [hset, hone]; rfl)
      omega
  | waitupgrade => exact ⟨rfl, trivial⟩

theorem afterUndoRead_follows (hne : afterUndoRead f count ≠ .panicked) :
    Follows t holder h true (afterUndoRead f count) := by
  unfold afterUndoRead at hne ⊢
  split_ifs at hne ⊢ with hgrant hupreq
  · exact ⟨rfl, trivial, hgrant⟩
  · simp only [Bool.and_eq_true] at hupreq
    exact ⟨rfl, trivial, Bool.eq_false_iff.mpr hgrant, hupreq.1⟩
  · exact absurd rfl hne

end Switch

/-- What the invariant says of the word alone. -/
structure LockCount.Sane (count : LockCount) : Prop where
  upreq_excl : count.upreq = true → count.excl = false
  upreq_mask : count.upreq = true → count.mask ≠ 0
  upgrant_excl : count.upgrant = true → count.excl = true

theorem LockCount.inc_of_lt {count : LockCount} (h : count.mask < lkcMask) :
    count.inc = { count with mask := count.mask + 1 } := by
  rw [inc, if_pos h]

section Acts

variable {t : T} {holder : Option T} {h : Held} {count : LockCount}

/-- The parts of an outcome that the others can see, and what the thread knows then. -/
def Performs (t : T) (before : Core T) (o : Outcome T) : Prop :=
  Act t before (core o.count o.holder o.held o.pc) ∧ o.pc.Knows t o.holder o.held

theorem Follows.performs (hp : p.owner = owner) (hfollows : Follows t holder h owner p') :
    Performs t (core count holder h p) ⟨count, holder, h, p'⟩ := by
  refine ⟨?_, hfollows.2⟩
  have howner : p'.owner = p.owner := by rw [hp, hfollows.1]
  simp only [core, howner]
  exact .quiet

theorem success_performs (hsane : count.Sane) (hsuits : deed.Suits f h)
    (hready : deed.Ready t holder h count)
    (hbound : h.ex + h.sh < (deed.held count h).ex + (deed.held count h).sh →
      count.mask < lkcMask) :
    Performs t (core count holder h (.cmpset f count deed))
      ⟨deed.word count, holder, deed.held count h, deed.success f count⟩ := by
  obtain ⟨exreq, shreq, upreq, excl, upgrant, mask⟩ := count
  cases deed with
  | share =>
    have hlt := hbound (by simp only [Deed.held]; omega)
    have hexcl : excl = false := hready
    subst hexcl
    refine ⟨?_, trivial⟩
    simp only [Deed.word, LockCount.inc_of_lt hlt]
    exact .share
  | waitShared | waitExclusive | checkGrant => exact ⟨.quiet, hsuits⟩
  | acquire =>
    cases hready
    exact ⟨.acquire, Nat.succ_pos _⟩
  | downgrade =>
    obtain ⟨hexcl, hmask, hex, ho⟩ := hready
    cases hexcl
    cases hmask
    exact ⟨.downgrade hex ho, trivial⟩
  | upgrade =>
    obtain ⟨hupreq, hexcl, hmask, hheld⟩ := hready
    cases hupreq
    cases hexcl
    cases hmask
    exact ⟨.upgrade hheld, Nat.succ_pos _⟩
  | request =>
    obtain ⟨hexcl, hmask, hsecond, hheld⟩ := hready
    cases hexcl
    cases upreq with
    | true =>
      by_cases hone : mask = 1
      · subst hone
        exact ⟨.grant hheld, trivial⟩
      · have hpos : mask ≠ 0 := hmask
        have htwo : 2 ≤ mask := by omega
        refine ⟨?_, trivial⟩
        simp only [Deed.word, hone, and_false, if_false, if_true]
        exact .drop hheld htwo
    | false =>
      have hne : mask ≠ 1 := hsecond rfl
      have hpos : mask ≠ 0 := hmask
      have htwo : 2 ≤ mask := by omega
      exact ⟨.request hheld htwo, trivial⟩
  | takeGrant =>
    cases hready
    have hexcl : excl = true := hsane.upgrant_excl rfl
    subst hexcl
    exact ⟨.take, Nat.succ_pos _⟩
  | undoGrant =>
    cases hready
    refine ⟨.take, ?_⟩
    simp only [Pc.Knows, Needs, Deed.held, Deed.success]
    omega
  | undoRequest =>
    obtain ⟨hgrant, hupreq⟩ := hready
    cases hgrant
    cases hupreq
    refine ⟨?_, trivial⟩
    simp only [Deed.word]
    split_ifs
    · exact .cancel
    · exact .cancel
  | releaseLast =>
    obtain ⟨hupreq, hmask, hheld, hholder⟩ := hready
    cases hupreq
    cases hmask
    exact ⟨.last hheld fun hexcl => (hholder hexcl).2, trivial⟩
  | releaseGrant =>
    obtain ⟨hupreq, hexcl, hmask, hheld⟩ := hready
    cases hupreq
    cases hexcl
    cases hmask
    exact ⟨.grant hheld, trivial⟩
  | releaseOne =>
    obtain ⟨hmask, hheld⟩ := hready
    exact ⟨.drop hheld hmask, trivial⟩

theorem failure_follows (hsuits : deed.Suits f h) (hready : deed.Ready t holder h c) :
    Follows t holder h (Pc.cmpset f c deed).owner (deed.failure f c) := by
  have hfair : f.Fair h → Follows t holder h false (.again f) := by
    intro hfair
    exact ⟨decide_eq_false hfair.1, hfair.2⟩
  cases deed with
  | takeGrant | checkGrant =>
    have htype : f.type = .waitupgrade := hsuits
    refine ⟨decide_eq_true htype, ?_⟩
    simp only [Deed.failure, Pc.Knows, htype]
    trivial
  | undoGrant | undoRequest => exact ⟨rfl, trivial⟩
  | downgrade => exact ⟨rfl, hsuits, hready.2.2.1, nofun⟩
  | releaseLast =>
    simp only [Deed.failure]
    split_ifs with hexcl
    · exact ⟨rfl, hsuits, (hready.2.2.2 hexcl).1, nofun⟩
    · exact hfair hsuits
  | releaseGrant =>
    simp only [Deed.failure, hready.2.1]
    exact hfair hsuits
  | share | waitShared | acquire | waitExclusive | upgrade | request | releaseOne =>
    exact hfair hsuits

theorem performs_of_step [DecidableEq T] (hsane : count.Sane) (hholder : holder = some t → 0 < h.ex)
    (howner : p.owner = true → count.upreq = true ∨ count.upgrant = true)
    (hknows : p.Knows t holder h) (hstep : step t count holder h p = some o)
    (hbound : h.ex + h.sh < o.held.ex + o.held.sh → count.mask < lkcMask) :
    Performs t (core count holder h p) o := by
  cases p with
  | idle _ | asleep _ _ | panicked => cases hstep
  | again f =>
    cases hstep
    exact (switch_follows hknows hsane.upreq_excl).performs rfl
  | readHolder f c =>
    cases hstep
    refine (afterHolder_follows hknows ?_).performs rfl
    intro hmine
    exact hholder (of_decide_eq_true hmine)
  | cmpset f c deed =>
    obtain ⟨hsuits, hready⟩ := hknows
    rw [step] at hstep
    split_ifs at hstep with hword
    · cases hstep
      subst hword
      exact success_performs hsane hsuits hready hbound
    · cases hstep
      exact (failure_follows hsuits hready).performs rfl
  | recurse f =>
    cases hstep
    have hlt := hbound (by simp only; omega)
    refine ⟨?_, trivial⟩
    simp only [core, LockCount.inc_of_lt hlt]
    exact .recurse hknows
  | setHolder f =>
    cases hstep
    exact ⟨.setHolder hknows, trivial⟩
  | clearHolder f c deed =>
    cases hstep
    obtain ⟨hfair, hdeed, hexcl, hmask, hex⟩ := hknows
    rcases hdeed with rfl | ⟨rfl, hupreq⟩
    · exact ⟨.clearHolder, hfair, hexcl, hmask, hex, nofun⟩
    · have hheld : 0 < h.ex + h.sh := by omega
      exact ⟨.clearHolder, hfair, hupreq, hmask, hheld, fun _ => ⟨hex, nofun⟩⟩
  | restoreHolder f deed =>
    cases hstep
    obtain ⟨hfair, hex, hdeed⟩ := hknows
    have hafter : afterRestore f deed = .again f := by
      cases deed <;> first | rfl | exact absurd rfl hdeed
    refine ⟨?_, ?_⟩
    · simp only [core, hafter, Pc.owner, hfair.1, decide_false]
      exact .setHolder hex
    · simp only [hafter]
      exact hfair.2
  | undo f =>
    cases hstep
    refine (afterUndoRead_follows ?_).performs rfl
    unfold afterUndoRead
    intro hpanic
    split_ifs at hpanic with hgrant hset
    rcases howner rfl with hupreq | hupgrant
    · apply hset
      rw [hupreq, bne_iff_ne.mpr (hsane.upreq_mask hupreq)]
      rfl
    · exact hgrant hupgrant

/-- The sleep of `LK_UPGRADE` ends with an error after the thread has set `LKC_UPREQ`. -/
def Abandons (p : Pc) (result : Option Errno) : Prop :=
  ∃ f, p = .asleep f (.request false) ∧ (sleepError f result).isSome

theorem performs_of_wake (hknows : (Pc.asleep f sleep).Knows t holder h)
    (hkept : ¬ Abandons (.asleep f sleep) result) :
    Performs t (core count holder h (.asleep f sleep))
      ⟨count, holder, h, afterSleep f sleep result⟩ := by
  unfold afterSleep
  cases herror : sleepError f result with
  | none =>
    cases sleep with
    | plain => exact Follows.performs rfl ⟨decide_eq_false hknows.1, hknows.2⟩
    | request upreq =>
      cases upreq with
      | true | false => exact Follows.performs rfl ⟨rfl, trivial⟩
    | grant =>
      have htype : f.type = .waitupgrade := hknows
      refine Follows.performs rfl ⟨decide_eq_true htype, ?_⟩
      simp only [Pc.Knows, htype]
      trivial
  | some e =>
    cases sleep with
    | plain | grant => exact ⟨.quiet, trivial⟩
    | request upreq =>
      cases upreq with
      | true => exact ⟨.quiet, trivial⟩
      | false => exact absurd ⟨f, rfl, by rw [herror]; rfl⟩ hkept

end Acts

end DragonFly.Lockmgr
