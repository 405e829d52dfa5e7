import DragonFly.LockfRun

/-!
# Blocked requests

A request on the blocked list waits for a range of another owner.  A pass of that
owner which takes away the last byte the request waits for wakes it up.  Blocked
requests stand in the order in which they went to sleep, and a POSIX request goes
to sleep only for an owner that is not asleep itself; so following the waits one
comes to an owner that can run.
-/

namespace DragonFly.AdvLock

open IntervalMap List

/-- A range keeps a blocked request from its lock. -/
structure Blocks (lock : Lockf) (range brange : LockfRange) : Prop where
  held : range ∈ lock.lfRange
  owner : range.lfOwner ≠ brange.lfOwner
  overlap : lfOverlap range brange.lfStart brange.lfEnd = true
  exclusive : brange.lfType = .wrlck ∨ range.lfType = .wrlck

/-- The owner has a byte that keeps the blocked request from its lock. -/
structure WaitsFor (lock : Lockf) (brange : LockfRange) (owner : ℕ) :
    Prop where
  other : owner ≠ brange.lfOwner
  byte : ∃ x type, brange.lfStart ≤ x ∧ x ≤ brange.lfEnd ∧
    Holds lock owner x type ∧ (brange.lfType = .wrlck ∨ type = .wrlck)

variable {owner : ℕ} {lock lock' : Lockf} {range : LockfRange} {req : Request}
  {st st' : LockState} {env : LockEnv} {crUid : ℕ → ℕ}

theorem WaitsFor.blocks (h : WaitsFor lock brange owner) :
    ∃ range, range.lfOwner = owner ∧ Blocks lock range brange := by
  obtain ⟨x, type, hle, hge, ⟨range, hrange, howner, hstart, hend, rfl⟩, hexclusive⟩ := h.byte
  refine ⟨range, howner, hrange, ?_, ?_, hexclusive⟩
  · rw [howner]
    exact h.other
  · simp only [lfOverlap, decide_eq_true_eq]
    omega

def Request.brange (req : Request) (id : ℕ) : LockfRange :=
  { req.range id with lfPosix := false, lfNoend := false }

theorem sleepOn_blocked (st : LockState) (req : Request) :
    (sleepOn st req).lock.lfBlocked = st.lock.lfBlocked ++ [req.brange st.lock.nextId] :=
  rfl

theorem Request.Conflict.waitsFor
    (h : req.Conflict range) (hreq : req.start ≤ req.stop) (hrange : range ∈ lock.lfRange)
    (hproper : range.lfStart ≤ range.lfEnd) (id : ℕ) :
    WaitsFor lock (req.brange id) range.lfOwner := by
  have hmeets := h.meets
  simp only [Request.meets, decide_eq_true_eq] at hmeets
  refine ⟨h.owner, max req.start range.lfStart, range.lfType, le_max_left _ _, ?_, ?_, h.exclusive⟩
  · simp only [Request.brange, Request.range]
    omega
  · exact ⟨range, hrange, rfl, le_max_right _ _, by omega, rfl⟩

/-! ## No wait is lost -/

theorem WaitsFor.of_holds (h : WaitsFor lock brange owner)
    (hholds : ∀ x type, Holds lock owner x type → Holds lock' owner x type) :
    WaitsFor lock' brange owner := by
  obtain ⟨x, type, hle, hge, hold, hexclusive⟩ := h.byte
  exact ⟨h.other, x, type, hle, hge, hholds x type hold, hexclusive⟩

theorem Applied.blocked_subset (h : Applied env st st' req) :
    List.Sublist st'.lock.lfBlocked st.lock.lfBlocked := by
  rw [h.blocked]
  split_ifs
  · exact filter_sublist
  · exact List.Sublist.refl _

theorem Applied.not_woken (h : Applied env st st' req) (hmet : range ∈ req.met st.lock.lfRange)
    (hblocked : brange ∈ st'.lock.lfBlocked)
    (hoverlap : lfOverlap brange req.start req.stop = true) :
    req.wakes range = false := by
  by_contra hwakes
  rw [Bool.not_eq_false] at hwakes
  have hany : (req.met st.lock.lfRange).any req.wakes = true :=
    any_eq_true.mpr ⟨range, hmet, hwakes⟩
  rw [h.blocked, if_pos hany] at hblocked
  have hkept := (mem_filter.mp hblocked).2
  rw [hoverlap] at hkept
  cases hkept

theorem Applied.waitsFor (h : Applied env st st' req) (hreq : req.start ≤ req.stop)
    (hordered : Ordered (intervals (ownRanges req.owner st.lock.lfRange)))
    (hblocked : brange ∈ st'.lock.lfBlocked) (hwaits : WaitsFor st.lock brange owner) :
    WaitsFor st'.lock brange owner := by
  by_cases howner : owner = req.owner
  · subst howner
    obtain ⟨x, type, hle, hge, hold, hexclusive⟩ := hwaits.byte
    have hholds := h.holds_own hreq hordered x
    by_cases hin : req.start ≤ x ∧ x ≤ req.stop
    · obtain ⟨range, hrange, hrangeOwner, hstart, hend, rfl⟩ := hold
      have hmet : range ∈ req.met st.lock.lfRange := by
        apply mem_filter.mpr
        refine ⟨mem_ownRanges.mpr ⟨hrange, hrangeOwner⟩, ?_⟩
        simp only [Request.meets, decide_eq_true_eq]
        omega
      have hoverlap : lfOverlap brange req.start req.stop = true := by
        simp only [lfOverlap, decide_eq_true_eq]
        omega
      -- the waiter was not woken, so the byte has not become freer
      have hwakes := h.not_woken hmet hblocked hoverlap
      simp only [Request.wakes, Bool.or_eq_false_iff, decide_eq_false_iff_not] at hwakes
      refine ⟨hwaits.other, x, req.type, hle, hge, ?_, ?_⟩
      · rw [hholds]
        exact Or.inl ⟨hwakes.1, hin.1, hin.2, rfl⟩
      · rcases hexclusive with hwrite | hwrite
        · exact Or.inl hwrite
        · cases htype : req.type with
          | rdlck => exact absurd ⟨htype, hwrite⟩ hwakes.2
          | unlck => exact absurd htype hwakes.1
          | wrlck => exact Or.inr rfl
    · refine ⟨hwaits.other, x, type, hle, hge, ?_, hexclusive⟩
      rw [hholds]
      exact Or.inr ⟨by omega, hold⟩
  · apply hwaits.of_holds
    intro x type hold
    rw [h.holds_other howner]
    exact hold

def AllWait (lock : Lockf) : Prop :=
  ∀ brange ∈ lock.lfBlocked, ∃ owner, WaitsFor lock brange owner

theorem Applied.allWait (h : Applied env st st' req) (hreq : req.start ≤ req.stop)
    (hordered : Ordered (intervals (ownRanges req.owner st.lock.lfRange)))
    (hwait : AllWait st.lock) : AllWait st'.lock := by
  intro brange hblocked
  obtain ⟨owner, hwaits⟩ := hwait brange (h.blocked_subset.subset hblocked)
  exact ⟨owner, h.waitsFor hreq hordered hblocked hwaits⟩

theorem AllWait.sleepOn
    (h : AllWait st.lock) (hwaits : WaitsFor st.lock (req.brange st.lock.nextId) owner) :
    AllWait (sleepOn st req).lock := by
  intro brange hblocked
  rw [sleepOn_blocked] at hblocked
  rcases mem_append.mp hblocked with hold | hnew
  · obtain ⟨owner, hwaits⟩ := h brange hold
    exact ⟨owner, hwaits.of_holds fun _ _ hheld => hheld⟩
  · rw [mem_singleton.mp hnew]
    exact ⟨owner, hwaits.of_holds fun _ _ hheld => hheld⟩

theorem Applied.waitsFor_released (hwell : WellFormed crUid st)
    (h : Applied env st st' req.unlockFirst) (hreq : req.start ≤ req.stop)
    (hrange : range ∈ st.lock.lfRange) (hconflict : req.Conflict range) :
    WaitsFor st'.lock (req.brange st'.lock.nextId) range.lfOwner := by
  apply (hconflict.waitsFor hreq hrange (hwell.proper hrange) st'.lock.nextId).of_holds
  intro x type hold
  exact (h.holds_other hconflict.owner x type).mpr hold

theorem Reached.allWait (h : Reached allowed crUid st) : AllWait st.lock := by
  induction h with
  | init counts hprocess huser =>
    intro brange hblocked
    cases hblocked
  | @setlock st st' env req out h henv hreq hallowed hstep ih =>
    have hwell := h.wellFormed
    have hordered := hwell.ordered req.owner
    cases lfSetlock_pass hreq.bytes hwell.tidy hordered hstep with
    | applied hfree happlied => exact happlied.allWait hreq.bytes hordered ih
    | failed error => exact ih
    | blocked hrange hconflict hidle =>
      exact ih.sleepOn (hconflict.waitsFor hreq.bytes hrange (hwell.proper hrange) _)
    | released hrange hconflict hflock htype happlied =>
      exact (happlied.allWait hreq.bytes hordered ih).sleepOn
        (happlied.waitsFor_released hwell hreq.bytes hrange hconflict)
  | interrupt id h ih =>
    intro brange hblocked
    obtain ⟨owner, hwaits⟩ := ih brange (mem_filter.mp hblocked).1
    exact ⟨owner, hwaits.of_holds fun _ _ hheld => hheld⟩

theorem Reached.blocked_requests_conflict
    {allowed : Request → Prop} {crUid : ℕ → ℕ} {st : LockState} (h : Reached allowed crUid st) :
    ∀ brange ∈ st.lock.lfBlocked, ∃ range ∈ st.lock.lfRange, range.lfOwner ≠ brange.lfOwner ∧
        lfOverlap range brange.lfStart brange.lfEnd = true ∧
        (brange.lfType = .wrlck ∨ range.lfType = .wrlck) := by
  intro brange hblocked
  obtain ⟨owner, hwaits⟩ := h.allWait brange hblocked
  obtain ⟨range, -, hblocks⟩ := hwaits.blocks
  exact ⟨range, hblocks.held, hblocks.owner, hblocks.overlap, hblocks.exclusive⟩

/-- A second owner waits for bytes of the first. -/
theorem Reached.waiter_conflicts : ∃ st : LockState, Reached (fun _ => True) (fun _ => 7) st ∧
      ∃ brange ∈ st.lock.lfBlocked, ∃ range ∈ st.lock.lfRange, range.lfOwner ≠ brange.lfOwner ∧
          lfOverlap range brange.lfStart brange.lfEnd = true ∧
          (brange.lfType = .wrlck ∨ range.lfType = .wrlck) := by
  have hheld : Reached (fun _ => True) (fun _ => 7) _ :=
    .setlock ⟨fun _ => 7, fun _ => 4, 8⟩
      ⟨1, .wrlck, ⟨true, true, false⟩, 0, 9⟩ .ok
      (.init ⟨fun _ => 0, fun _ => 0⟩ (by simp) (by simp)) rfl
      ⟨by decide, by decide, by decide⟩ trivial rfl
  have hblocked : Reached (fun _ => True) (fun _ => 7) _ :=
    .setlock ⟨fun _ => 7, fun _ => 4, 8⟩
      ⟨2, .rdlck, ⟨true, false, false⟩, 5, 12⟩ .asleep hheld rfl
      ⟨by decide, by decide, by decide⟩ trivial rfl
  refine ⟨_, hblocked, _, mem_singleton_self _, ?_⟩
  exact hblocked.blocked_requests_conflict _ (mem_singleton_self _)

/-! ## Chains of waits -/

/-- From a blocked request one comes to an owner that is not blocked. -/
inductive ChainEnds (lock : Lockf) : LockfRange → Prop
  | free {brange range : LockfRange} (hblocks : Blocks lock range brange)
      (hfree : ∀ b ∈ lock.lfBlocked, b.lfOwner ≠ range.lfOwner) :
      ChainEnds lock brange
  | next {brange range brange' : LockfRange}
      (hblocks : Blocks lock range brange)
      (hblocked : brange' ∈ lock.lfBlocked)
      (howner : brange'.lfOwner = range.lfOwner)
      (h : ChainEnds lock brange') : ChainEnds lock brange

/-- Every blocked request waits for an owner that was not blocked before it. -/
def WaitsForward (lock : Lockf) (blocked : List LockfRange) : Prop :=
  ∀ pre brange post, blocked = pre ++ brange :: post →
    ∃ owner, WaitsFor lock brange owner ∧ ∀ b ∈ pre, b.lfOwner ≠ owner

theorem WaitsForward.sublist (h : WaitsForward lock blocked) (hsub : List.Sublist blocked' blocked)
    (hwaits : ∀ brange ∈ blocked', ∀ owner,
      WaitsFor lock brange owner → WaitsFor lock' brange owner) : WaitsForward lock' blocked' := by
  intro pre brange post hsplit
  rw [hsplit] at hsub
  obtain ⟨front, back, hlist, hpre, hpost⟩ := append_sublist_iff.mp hsub
  obtain ⟨skipped, rest, hback, hmem, -⟩ := cons_sublist_iff.mp hpost
  obtain ⟨left, right, hskipped⟩ := append_of_mem hmem
  have hwhole : blocked = (front ++ left) ++ brange :: (right ++ rest) := by
    rw [hlist, hback, hskipped]
    simp
  obtain ⟨owner, hold, hfirst⟩ := h _ _ _ hwhole
  refine ⟨owner, hwaits brange (by simp [hsplit]) owner hold, ?_⟩
  intro b hb
  exact hfirst b (mem_append_left _ (hpre.subset hb))

theorem WaitsForward.append (h : WaitsForward lock blocked) (hholds : lock'.lfRange = lock.lfRange)
    (hwaits : WaitsFor lock brange owner) (hfirst : ∀ b ∈ blocked, b.lfOwner ≠ owner) :
    WaitsForward lock' (blocked ++ [brange]) := by
  have hsame : ∀ b owner, WaitsFor lock b owner → WaitsFor lock' b owner := by
    intro b owner hold
    apply hold.of_holds
    intro x type hheld
    unfold Holds at hheld ⊢
    rw [hholds]
    exact hheld
  intro pre b post hsplit
  rcases eq_nil_or_concat post with rfl | ⟨init, last, rfl⟩
  · obtain ⟨rfl, hb⟩ := append_inj' hsplit rfl
    rw [List.cons.injEq] at hb
    rw [← hb.1]
    exact ⟨owner, hsame brange owner hwaits, hfirst⟩
  · rw [concat_eq_append, ← cons_append, ← append_assoc] at hsplit
    obtain ⟨hblocked, -⟩ := append_inj' hsplit rfl
    obtain ⟨owner, hold, hbefore⟩ := h pre b init hblocked
    exact ⟨owner, hsame b owner hold, hbefore⟩

/-- Requests with POSIX semantics, and unlocks. -/
def Request.IsPosix (req : Request) : Prop :=
  req.type = .unlck ∨ req.flags.posix = true

theorem Reached.waitsForward (h : Reached Request.IsPosix crUid st) :
    WaitsForward st.lock st.lock.lfBlocked := by
  induction h with
  | init counts hprocess huser =>
    intro pre brange post hsplit
    simp at hsplit
  | @setlock st st' env req out h henv hreq hallowed hstep ih =>
    have hwell := h.wellFormed
    have hordered := hwell.ordered req.owner
    cases lfSetlock_pass hreq.bytes hwell.tidy hordered hstep with
    | applied hfree happlied =>
      apply ih.sublist happlied.blocked_subset
      intro brange hblocked owner hwaits
      exact happlied.waitsFor hreq.bytes hordered hblocked hwaits
    | failed error => exact ih
    | blocked hrange hconflict hidle =>
      have hposix : req.flags.posix = true := by
        rcases hallowed with htype | hposix
        · exact absurd htype hconflict.locks
        · exact hposix
      rw [sleepOn_blocked]
      exact ih.append rfl (hconflict.waitsFor hreq.bytes hrange
        (hwell.proper hrange) _) (hidle hposix)
    | released hrange hconflict hflock htype happlied =>
      rcases hallowed with hunlock | hposix
      · exact absurd hunlock hconflict.locks
      · rw [hposix] at hflock
        cases hflock
  | interrupt id h ih =>
    apply ih.sublist filter_sublist
    intro brange _ owner hwaits
    exact hwaits.of_holds fun _ _ hheld => hheld

theorem WaitsForward.chainEnds (h : WaitsForward lock lock.lfBlocked)
    (hsplit : lock.lfBlocked = pre ++ brange :: post) : ChainEnds lock brange := by
  -- the chain only goes towards the end of the list
  induction hlength : post.length using Nat.strong_induction_on
    generalizing pre brange post with
  | _ n ih =>
    obtain ⟨owner, hwaits, hbefore⟩ := h pre brange post hsplit
    obtain ⟨range, howner, hblocks⟩ := hwaits.blocks
    by_cases hfree : ∀ b ∈ lock.lfBlocked, b.lfOwner ≠ range.lfOwner
    · exact .free hblocks hfree
    · push Not at hfree
      obtain ⟨b, hb, hbowner⟩ := hfree
      have hpost : b ∈ post := by
        rw [hsplit, mem_append, mem_cons] at hb
        rcases hb with hb | rfl | hb
        · exact absurd (hbowner.trans howner) (hbefore b hb)
        · exact absurd hbowner.symm hblocks.owner
        · exact hb
      obtain ⟨left, right, hright⟩ := append_of_mem hpost
      have hsplit' : lock.lfBlocked = (pre ++ brange :: left) ++ b :: right := by
        rw [hsplit, hright]
        simp
      have hshorter : right.length < n := by
        rw [← hlength, hright, length_append, length_cons]
        omega
      exact .next hblocks hb hbowner (ih right.length hshorter hsplit' rfl)

theorem Reached.posix_waits_end
    {crUid : ℕ → ℕ} {st : LockState} (h : Reached Request.IsPosix crUid st) :
    ∀ brange ∈ st.lock.lfBlocked, ChainEnds st.lock brange := by
  intro brange hblocked
  obtain ⟨pre, post, hsplit⟩ := append_of_mem hblocked
  exact h.waitsForward.chainEnds hsplit

/-- The third owner waits for the second, which waits for the first. -/
theorem Reached.two_waits_end : ∃ st : LockState, Reached Request.IsPosix (fun _ => 7) st ∧
      st.lock.lfBlocked.map LockfRange.lfOwner = [3, 2] ∧
      ∀ brange ∈ st.lock.lfBlocked, ChainEnds st.lock brange := by
  have hfirst : Reached Request.IsPosix (fun _ => 7) _ :=
    .setlock ⟨fun _ => 7, fun _ => 4, 8⟩
      ⟨1, .wrlck, ⟨true, true, false⟩, 0, 9⟩ .ok
      (.init ⟨fun _ => 0, fun _ => 0⟩ (by simp) (by simp)) rfl
      ⟨by decide, by decide, by decide⟩ (Or.inr rfl) rfl
  have hsecond : Reached Request.IsPosix (fun _ => 7) _ :=
    .setlock ⟨fun _ => 7, fun _ => 4, 8⟩
      ⟨2, .wrlck, ⟨true, true, false⟩, 20, 29⟩ .ok hfirst rfl
      ⟨by decide, by decide, by decide⟩ (Or.inr rfl) rfl
  have hthird : Reached Request.IsPosix (fun _ => 7) _ :=
    .setlock ⟨fun _ => 7, fun _ => 4, 8⟩
      ⟨3, .wrlck, ⟨true, true, false⟩, 25, 25⟩ .asleep hsecond rfl
      ⟨by decide, by decide, by decide⟩ (Or.inr rfl) rfl
  have hfourth : Reached Request.IsPosix (fun _ => 7) _ :=
    .setlock ⟨fun _ => 7, fun _ => 4, 8⟩
      ⟨2, .rdlck, ⟨true, true, false⟩, 4, 4⟩ .asleep hthird rfl
      ⟨by decide, by decide, by decide⟩ (Or.inr rfl) rfl
  exact ⟨_, hfourth, rfl, hfourth.posix_waits_end⟩

end DragonFly.AdvLock
