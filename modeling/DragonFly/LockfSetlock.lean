import DragonFly.LockfOverwrite

/-!
# One pass of a request

A pass writes the request on the owner's map, fails and leaves everything as it
was, or goes to sleep.  The counters follow the number of ranges that the owner
has for POSIX locks.
-/

namespace DragonFly.AdvLock

open IntervalMap List Option Prod

/-! ## Counters -/

def PosixCounts.change (counts : PosixCounts) (env : LockEnv) (owner : ℕ)
    (diff : ℤ) : PosixCounts :=
  if owner = 0 then counts else counts.add (env.crUid owner) owner diff

theorem change_zero (counts : PosixCounts) (env : LockEnv) (owner : ℕ) :
    counts.change env owner 0 = counts := by
  unfold PosixCounts.change PosixCounts.add
  split_ifs
  · rfl
  · simp

theorem change_change (counts : PosixCounts) (env : LockEnv) (owner : ℕ) (diff diff' : ℤ) :
    (counts.change env owner diff).change env owner diff' =
      counts.change env owner (diff + diff') := by
  unfold PosixCounts.change PosixCounts.add
  split_ifs
  · rfl
  · simp [add_assoc]

variable {diff : ℤ} {owner : ℕ} {counts counts' : PosixCounts} {env : LockEnv} {req : Request}
  {st st' : LockState} {out : Outcome}

theorem lfCountChange_counts (h : lfCountChange env counts owner diff = some (false, counts')) :
    counts' = counts.change env owner diff := by
  unfold lfCountChange at h
  unfold PosixCounts.change
  simp only at h
  split_ifs at h ⊢
  · simp only [some.injEq, mk.injEq, true_and] at h
    exact h.symm
  · simp at h
  · simp only [some.injEq, mk.injEq, true_and] at h
    exact h.symm

theorem lfCountChange_refused (h : lfCountChange env counts owner diff = some (true, counts')) :
    0 < diff := by
  unfold lfCountChange at h
  simp only at h
  split_ifs at h with howner hlimit
  · simp at h
  · exact hlimit.1
  · simp at h

theorem change_if_counts [Decidable needed] (hneeded : ¬needed → diff = 0)
    (h : (if needed then lfCountChange env counts owner diff
      else some (false, counts)) = some (false, counts')) :
    counts' = counts.change env owner diff := by
  split_ifs at h with hn
  · exact lfCountChange_counts h
  · simp only [some.injEq, mk.injEq, true_and] at h
    rw [hneeded hn, change_zero, h]

/-! ## A request that is granted -/

/-- The owner's ranges before the primary range is merged with its neighbours. -/
inductive Rewritten (req : Request) (id : ℕ) : List LockfRange → List LockfRange → Prop
  | new (pre post : List LockfRange) :
      Rewritten req id (pre ++ post) (pre ++ (req.primary id ++ post))
  | over {own own' : List LockfRange} (h : Reshaped req id first last own own') :
      Rewritten req id own own'

/-- The request is written on the owner's map. -/
structure Applied (env : LockEnv) (st st' : LockState) (req : Request) :
    Prop where
  tidy : Tidy st'.lock.nextId st'.lock.lfRange
  next : st.lock.nextId ≤ st'.lock.nextId
  others : otherRanges req.owner st'.lock.lfRange = otherRanges req.owner st.lock.lfRange
  fused : Fused (splice req.start req.stop req.written
      (intervals (ownRanges req.owner st.lock.lfRange)))
    (intervals (ownRanges req.owner st'.lock.lfRange))
  counts : st'.counts = st.counts.change env req.owner
    (posixTotal (ownRanges req.owner st'.lock.lfRange) -
      posixTotal (ownRanges req.owner st.lock.lfRange))
  keeps : ∃ own, Rewritten req st.lock.nextId (ownRanges req.owner st.lock.lfRange) own ∧
    ∀ P : LockfRange → Prop, (∀ a b, P a → P b → b.lfStart = a.lfEnd + 1 → P (a.extend b)) →
      (∀ range ∈ own, P range) → ∀ range ∈ ownRanges req.owner st'.lock.lfRange, P range
  blocked : st'.lock.lfBlocked =
    if (req.met st.lock.lfRange).any req.wakes then
      (lfWakeup st.lock req.start req.stop).lfBlocked
    else st.lock.lfBlocked

def Settled (env : LockEnv) (st : LockState) (req : Request)
    (st' : LockState) (out : Outcome) : Prop :=
  (out = .ok ∧ Applied env st st' req) ∨ (out = .failed .enolck ∧ st' = st ∧ req.flags.posix = true)

theorem initialCount_flock
    (h : req.flags.posix = false) (first last : LockfRange) : initialCount req first last = 0 := by
  simp [initialCount, h]

theorem Overwritten.applied (h : Overwritten req st.lock.nextId st.lock.lfRange first last clip)
    (hcounts : counts = st.counts.change env req.owner
      (clip.count + (mergeAdjacent req (clip.before ++ clip.after) clip.brange).2 -
        initialCount req first last)) :
    Applied env st (doWakeup req clip.wakeupNeeded
        { lock := { st.lock with
            lfRange :=
              (mergeAdjacent req (clip.before ++ clip.after) clip.brange).1
            nextId := st.lock.nextId + 2 }
          counts := counts }) req := by
  have hmerged := mergeAdjacent_spec h.tidy h.primary
  constructor
  · unfold doWakeup
    split_ifs <;> exact hmerged.tidy
  · unfold doWakeup
    split_ifs <;> exact Nat.le_add_right _ 2
  · unfold doWakeup
    split_ifs <;> exact hmerged.others.trans h.others
  · unfold doWakeup
    split_ifs <;> exact h.fused.trans hmerged.fused
  · have hfinal : counts = st.counts.change env req.owner
        (posixTotal (ownRanges req.owner (mergeAdjacent req
          (clip.before ++ clip.after) clip.brange).1) -
          posixTotal (ownRanges req.owner st.lock.lfRange)) := by
      rw [hcounts, hmerged.total, h.count]
      congr 1
      ring
    unfold doWakeup
    split_ifs <;> exact hfinal
  · refine ⟨_, .over h.shape, ?_⟩
    unfold doWakeup
    split_ifs <;> exact hmerged.keeps
  · unfold doWakeup
    rw [h.wakeup]
    split_ifs <;> rfl

section

variable (hreq : req.start ≤ req.stop)
include hreq

variable (htidy : Tidy st.lock.nextId st.lock.lfRange)
include htidy

theorem setOverlapping_settled
    (hordered : Ordered (intervals (ownRanges req.owner st.lock.lfRange)))
    (hfirst : (req.met st.lock.lfRange).head? = some first)
    (hlast : (req.met st.lock.lfRange).getLast? = some last)
    (h : setOverlapping env st req (pointOf req.start st.lock.lfRange) first last =
      some (st', out)) :
    Settled env st req st' out := by
  obtain ⟨clip, hclip, hover⟩ := clipLoop_overwritten hreq htidy hordered hfirst hlast rfl
  simp only [setOverlapping, hclip] at h
  split at h
  · cases h
  · next hchange =>
      right
      simp only [some.injEq, mk.injEq] at h
      refine ⟨h.2.symm, h.1.symm, ?_⟩
      by_contra hflock
      rw [Bool.not_eq_true] at hflock
      rw [initialCount_flock hflock] at hchange
      simp at hchange
  · next counts hchange =>
      left
      have hcounts := change_if_counts (by omega) hchange
      split at h
      · cases h
      · next hpos =>
          split at h
          · cases h
          · next refused counts' hchange' =>
              simp only [some.injEq, mk.injEq] at h
              have hrefused : refused = false := by
                cases refused with
                | false => rfl
                | true =>
                  split_ifs at hchange' with hneg
                  · have hdiff := lfCountChange_refused hchange'
                    omega
                  · simp at hchange'
              subst hrefused
              have hcounts' := change_if_counts (by omega) hchange'
              refine ⟨h.2.symm, ?_⟩
              rw [← h.1]
              apply hover.applied
              rw [hcounts', hcounts, change_change]
              congr 1
              ring

theorem setNew_settled (hordered : Ordered (intervals (ownRanges req.owner st.lock.lfRange)))
    (hmet : req.met st.lock.lfRange = [])
    (hpoint : found.insertPoint = pointOf req.start st.lock.lfRange)
    (h : setNew env st req found = some (st', out)) : Settled env st req st' out := by
  obtain ⟨pre, post, haround⟩ := exists_around hreq hordered
  rw [hmet] at haround
  have hsplice : splice req.start req.stop req.written
      (intervals (ownRanges req.owner st.lock.lfRange)) =
        intervals pre ++ req.written ++ intervals post := by
    have hparts := haround.splice
    simp only [intervals, map_nil, flatMap_nil, append_nil] at hparts
    exact hparts
  have hown := haround.own
  rw [append_nil] at hown
  unfold setNew at h
  by_cases htype : req.type = .unlck
  · left
    rw [if_pos htype] at h
    simp only [some.injEq, mk.injEq] at h
    refine ⟨h.2.symm, ?_⟩
    rw [← h.1]
    refine ⟨htidy, le_rfl, rfl, ?_, ?_, ?_, ?_⟩
    · have hwritten : req.written = [] := if_pos htype
      rw [hsplice, hwritten, append_nil, hown, intervals_append]
      exact .refl
    · rw [sub_self, change_zero]
    · have hprimary : req.primary st.lock.nextId = [] := if_pos htype
      have hrewritten : Rewritten req st.lock.nextId _ _ := .new pre post
      rw [hprimary, nil_append, ← hown] at hrewritten
      exact ⟨_, hrewritten, fun _ _ hall => hall⟩
    · rw [hmet]
      rfl
  · rw [if_neg htype] at h
    simp only at h
    split at h
    · cases h
    · next hchange =>
        right
        simp only [some.injEq, mk.injEq] at h
        refine ⟨h.2.symm, h.1.symm, ?_⟩
        by_contra hflock
        rw [if_neg hflock] at hchange
        simp at hchange
    · next counts hchange =>
        left
        simp only [some.injEq, mk.injEq] at h
        refine ⟨h.2.symm, ?_⟩
        rw [← h.1]
        have hinsert := insertPrimary_spec htidy hown haround.before_start haround.behind_start
        rw [insertPrimary, if_neg htype] at hinsert
        obtain ⟨-, -, hothers, hownNew⟩ := hinsert
        have hlist : lfInsert st.lock.lfRange (req.range st.lock.nextId)
            (pointOf req.start st.lock.lfRange) =
              insertFrom (req.range st.lock.nextId) st.lock.lfRange :=
          lfInsert_pointOf htidy (req.range st.lock.nextId)
        refine ⟨?_, Nat.le_succ _, ?_, ?_, ?_, ?_, ?_⟩
        · simp only
          rw [hpoint, hlist]
          have hwide : Tidy (st.lock.nextId + 1) st.lock.lfRange :=
            ⟨htidy.sorted, htidy.distinct,
              fun a ha => (htidy.bounded a ha).trans (Nat.lt_succ_self _)⟩
          apply hwide.insertFrom
          · exact fun a ha => (htidy.bounded a ha).ne
          · exact Nat.lt_succ_self _
        · simp only
          rw [hpoint]
          exact hothers
        · simp only
          rw [hpoint, hownNew, intervals_append, intervals_append,
            intervals_primary, ← append_assoc, ← hsplice]
          exact .refl
        · simp only
          rw [hpoint, hownNew, hown, posixTotal_append, posixTotal_append,
            posixTotal_append, posixTotal_primary]
          by_cases hposix : req.flags.posix = true
          · rw [if_pos hposix] at hchange
            rw [if_pos ⟨htype, hposix⟩, lfCountChange_counts hchange]
            congr 1
            ring
          · rw [if_neg hposix] at hchange
            simp only [some.injEq, mk.injEq, true_and] at hchange
            rw [if_neg (fun hboth => hposix hboth.2), ← hchange]
            rw [zero_add, sub_self, change_zero]
        · rw [hown]
          rw [hpoint, hownNew]
          exact ⟨_, .new pre post, fun _ _ hall => hall⟩
        · rw [hmet]
          rfl

theorem applyRequest_eq (hfree : (findRanges req st.lock.lfRange .empty).conflict = none) :
    (∃ first last, (req.met st.lock.lfRange).head? = some first ∧
        (req.met st.lock.lfRange).getLast? = some last ∧
        applyRequest env st req (findRanges req st.lock.lfRange .empty) =
          setOverlapping env st req (pointOf req.start st.lock.lfRange) first last) ∨
      (req.met st.lock.lfRange = [] ∧
        applyRequest env st req (findRanges req st.lock.lfRange .empty) =
          setNew env st req (findRanges req st.lock.lfRange .empty)) := by
  have hfound := findRanges_free hreq htidy.sorted hfree
  have hfirstId := hfound.first
  have hlastId := hfound.last
  have hpoint := hfound.point
  simp only [Found.empty, none_or, or_none] at hfirstId hlastId hpoint
  cases hmet : req.met st.lock.lfRange with
  | nil =>
    right
    rw [hmet, head?_nil, map_none] at hfirstId
    refine ⟨rfl, ?_⟩
    simp only [applyRequest, Found.empty, hfirstId, bind_none]
  | cons first rest =>
    left
    obtain ⟨last, hlast⟩ : ∃ last, (first :: rest).getLast? = some last := by
      simp [getLast?_cons]
    have hmem : ∀ a ∈ first :: rest, a ∈ st.lock.lfRange := by
      intro a ha
      rw [← hmet] at ha
      exact (mem_ownRanges.mp (mem_filter.mp ha).1).1
    have hfind : st.lock.lfRange.find? (fun a => a.lfId = first.lfId) =
        some first := htidy.find_id (hmem first (by simp))
    have hfind' : st.lock.lfRange.find? (fun a => a.lfId = last.lfId) = some last :=
      htidy.find_id (hmem last (mem_of_getLast? hlast))
    rw [hmet, head?_cons, map_some] at hfirstId
    rw [hmet, hlast, map_some] at hlastId
    refine ⟨first, last, rfl, hlast, ?_⟩
    simp only [applyRequest, Found.empty, hfirstId, hlastId, hpoint,
      bind_some, hfind, hfind']

theorem applyRequest_settled (hordered : Ordered (intervals (ownRanges req.owner st.lock.lfRange)))
    (hfree : (findRanges req st.lock.lfRange .empty).conflict = none) (h : applyRequest env st req
      (findRanges req st.lock.lfRange .empty) = some (st', out)) : Settled env st req st' out := by
  rcases applyRequest_eq hreq htidy hfree with
    ⟨first, last, hfirst, hlast, heq⟩ | ⟨hmet, heq⟩
  · rw [heq] at h
    exact setOverlapping_settled hreq htidy hordered hfirst hlast h
  · have hpoint := (findRanges_free hreq htidy.sorted hfree).point
    rw [heq] at h
    exact setNew_settled hreq htidy hordered hmet hpoint h

end

/-! ## The pass -/

inductive Pass (env : LockEnv) (st : LockState) (req : Request) :
    LockState → Outcome → Prop
  | applied {st' : LockState}
      (hfree : ∀ range ∈ st.lock.lfRange, ¬req.Conflict range)
      (h : Applied env st st' req) : Pass env st req st' .ok
  | failed (error : LockError) : Pass env st req st (.failed error)
  | blocked {range : LockfRange} (hrange : range ∈ st.lock.lfRange)
      (hconflict : req.Conflict range)
      (hidle : req.flags.posix = true → ∀ b ∈ st.lock.lfBlocked, b.lfOwner ≠ range.lfOwner) :
      Pass env st req (sleepOn st req) .asleep
  | released {range : LockfRange} {st' : LockState}
      (hrange : range ∈ st.lock.lfRange) (hconflict : req.Conflict range)
      (hflock : req.flags.posix = false) (htype : req.type = .wrlck)
      (h : Applied env st st' req.unlockFirst) :
      Pass env st req (sleepOn st' req) .asleep

theorem findRanges_unlock (htype : req.type = .unlck) (list : List LockfRange) :
    (findRanges req list .empty).conflict = none := by
  cases hconflict : (findRanges req list .empty).conflict with
  | none => rfl
  | some range =>
    have hrange := (findRanges_conflict rfl hconflict).2
    exact absurd htype hrange.locks

theorem lfSetlock_pass (hreq : req.start ≤ req.stop) (htidy : Tidy st.lock.nextId st.lock.lfRange)
    (hordered : Ordered (intervals (ownRanges req.owner st.lock.lfRange)))
    (h : lfSetlock env st req = some (st', out)) : Pass env st req st' out := by
  unfold lfSetlock at h
  simp only at h
  cases hconflict : (findRanges req st.lock.lfRange .empty).conflict with
  | none =>
    rw [hconflict] at h
    have hfree := (findRanges_free hreq htidy.sorted hconflict).free
    rcases applyRequest_settled hreq htidy hordered hconflict h with
      ⟨rfl, happlied⟩ | ⟨rfl, rfl, -⟩
    · exact .applied hfree happlied
    · exact .failed .enolck
  | some range =>
    rw [hconflict] at h
    obtain ⟨hrange, hblocking⟩ := findRanges_conflict rfl hconflict
    simp only at h
    split at h
    · simp only [some.injEq, mk.injEq] at h
      rw [← h.1, ← h.2]
      exact .failed .eagain
    · split at h
      · simp only [some.injEq, mk.injEq] at h
        rw [← h.1, ← h.2]
        exact .failed .edeadlk
      · next hdeadlock =>
          split at h
          · next hflock =>
              have hunlock := findRanges_unlock
                (rfl : req.unlockFirst.type = .unlck) st.lock.lfRange
              split at h
              · cases h
              · next st'' out' happly =>
                  simp only [some.injEq, mk.injEq] at h
                  rw [← h.1, ← h.2]
                  have hown : Ordered (intervals (ownRanges
                      req.unlockFirst.owner st.lock.lfRange)) := hordered
                  have hsettled := applyRequest_settled (by exact hreq) htidy hown hunlock happly
                  rcases hsettled with ⟨-, happlied⟩ | ⟨-, -, hposix⟩
                  · exact .released hrange hblocking hflock.1 hflock.2 happlied
                  · cases hposix
          · simp only [some.injEq, mk.injEq] at h
            rw [← h.1, ← h.2]
            apply Pass.blocked hrange hblocking
            intro hposix b hb howner
            exact hdeadlock ⟨hposix, b, hb, howner⟩

end DragonFly.AdvLock
