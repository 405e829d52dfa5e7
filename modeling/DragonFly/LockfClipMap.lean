import DragonFly.LockfClip

/-!
# The clip loop on the owner's map

On the owner's map the clip loop writes the request: what remains of the first
and of the last range is what lies outside of the request, and a range that
becomes part of the primary one is fused with it.
-/

namespace DragonFly.AdvLock

open IntervalMap List LockfRange

def intervals (list : List LockfRange) : List (Interval (LockType × Bool)) :=
  list.map LockfRange.interval

def Request.written (req : Request) : List (Interval (LockType × Bool)) :=
  if req.type = .unlck then []
  else [⟨req.start, req.stop, (req.type, req.flags.posix)⟩]

def Request.primary (req : Request) (id : ℕ) : List LockfRange :=
  if req.type = .unlck then [] else [req.range id]

theorem intervals_append (xs ys : List LockfRange) :
    intervals (xs ++ ys) = intervals xs ++ intervals ys :=
  map_append

theorem intervals_primary (req : Request) (id : ℕ) : intervals (req.primary id) = req.written := by
  unfold Request.primary Request.written
  split_ifs <;> rfl

variable {range last : LockfRange} {id bound : ℕ} {req : Request} {post : List LockfRange}
  {st : ClipState}

theorem lfMatch_iff :
    lfMatch range type flags = true ↔ range.interval.value = (type, flags.posix) := by
  simp [lfMatch, interval]

/-- The primary range ends the list, and ends where the request does. -/
def PrimaryLast (req : Request) (list : List LockfRange) (brange : Option LockfRange) : Prop :=
  ∀ b, brange = some b → (∃ init, list = init ++ [b]) ∧
    b.lfEnd = req.stop ∧ lfMatch b req.type req.flags = true

theorem primaryLast_primary (req : Request) (id : ℕ) (pre : List LockfRange) :
    PrimaryLast req (pre ++ req.primary id) (req.primary id).head? := by
  intro b hb
  unfold Request.primary at hb ⊢
  split_ifs at hb ⊢ with htype
  · cases hb
  · simp only [head?_cons, Option.some.injEq] at hb
    subst hb
    exact ⟨⟨pre, rfl⟩, rfl, by simp [lfMatch, Request.range]⟩

variable {pre kept : List LockfRange} {brange : Option LockfRange}

theorem LeftClip.fused
    (h : LeftClip req pre range (req.primary id) kept brange) (hstart : range.lfStart < req.start)
    (hend : req.start ≤ range.lfEnd + 1) :
    Fused (intervals pre ++ below req.start range.interval ++ req.written) (intervals kept) ∧
      PrimaryLast req kept brange := by
  have hbelow : below req.start range.interval =
      [{ range.interval with stop := req.start - 1 }] := by
    have hmin : min range.interval.stop (req.start - 1) = req.start - 1 := by
      simp only [interval]
      omega
    rw [below_of_lt hstart, hmin]
  rw [hbelow, ← intervals_primary req id]
  cases h with
  | @merged b hprimary hmatch =>
    have hb : b = req.range id ∧ req.type ≠ .unlck := by
      unfold Request.primary at hprimary
      split_ifs at hprimary with htype
      rw [List.cons.injEq] at hprimary
      exact ⟨hprimary.1.symm, htype⟩
    constructor
    · rw [hprimary, hb.1, intervals_append, append_assoc]
      exact .fuse .refl (by simp [interval, Request.range])
        (lfMatch_iff.mp hmatch)
    · intro b' hb'
      rw [Option.some.injEq] at hb'
      subst hb'
      refine ⟨⟨pre, rfl⟩, ?_, hmatch⟩
      rw [hb.1]
      rfl
  | clipped noend hmatch =>
    constructor
    · have hsame : intervals (pre ++ { range with lfEnd := req.start - 1, lfNoend := noend } ::
            req.primary id) =
          intervals pre ++ [{ range.interval with stop := req.start - 1 }] ++
            intervals (req.primary id) := by
        simp [intervals, interval]
      rw [hsame]
      exact .refl
    · rw [← singleton_append, ← append_assoc]
      exact primaryLast_primary req id _

theorem RightClip.fused (h : RightClip req kept last post brange own brange')
    (hprimary : PrimaryLast req kept brange) :
    Fused (intervals kept ++ above req.stop last.interval ++ intervals post) (intervals own) ∧
      ∀ b, brange' = some b → b ∈ own ∧ lfMatch b req.type req.flags = true := by
  have habove : req.stop < last.lfEnd → above req.stop last.interval = [{ last.interval with
        start := max last.lfStart (req.stop + 1) }] :=
    fun hend => above_of_lt hend
  cases h with
  | gone hend =>
    have hnone : above req.stop last.interval = [] := above_of_le hend
    constructor
    · rw [hnone, append_nil, intervals_append]
      exact .refl
    · intro b hb
      obtain ⟨⟨init, hinit⟩, -, hmatch⟩ := hprimary b hb
      exact ⟨by simp [hinit], hmatch⟩
  | @merged init b hend hstart hmatch hkept =>
    obtain ⟨-, hstop, hb⟩ := hprimary b rfl
    constructor
    · have hmax : max last.lfStart (req.stop + 1) = req.stop + 1 := by
        omega
      rw [habove hend, hmax, hkept, intervals_append, intervals_append, append_assoc, append_assoc]
      refine .fuse .refl ?_ ?_
      · simp only [interval]
        omega
      · exact (lfMatch_iff.mp hb).trans (lfMatch_iff.mp hmatch).symm
    · intro b' hb'
      rw [Option.some.injEq] at hb'
      subst hb'
      exact ⟨by simp, hb⟩
  | clipped hend hmatch =>
    constructor
    · have hsame : intervals (kept ++ { last with lfStart := max last.lfStart (req.stop + 1) } ::
            post) =
          intervals kept ++ [{ last.interval with
            start := max last.lfStart (req.stop + 1) }] ++
            intervals post := by
        simp [intervals, interval]
      rw [habove hend, hsame]
      exact .refl
    · intro b hb
      obtain ⟨⟨init, hinit⟩, -, hmatch⟩ := hprimary b hb
      exact ⟨by simp [hinit], hmatch⟩

/-! ## The whole loop -/

/-- The loop has written `expected`, after a look at the ranges `seen`. -/
structure Clipped (req : Request) (bound : ℕ) (st st' : ClipState)
    (expected : List (Interval (LockType × Bool)))
    (seen : List LockfRange) : Prop where
  frame : ClipFrame req bound st st'
  fused : Fused expected (intervals (ownRanges req.owner (st'.before ++ st'.after)))
  primary : ∀ b, st'.brange = some b → b ∈ ownRanges req.owner (st'.before ++ st'.after) ∧
      lfMatch b req.type req.flags = true
  wakeup : st'.wakeupNeeded = (st.wakeupNeeded || seen.any req.wakes)

theorem clipLoop_within (first : ℕ) (hfuel : st.after.length ≤ fuel)
    (htidy : Tidy bound (st.before ++ st.after))
    (hbefore : ownRanges req.owner st.before = pre ++ req.primary id)
    (hafter : ownRanges req.owner st.after = inside ++ last :: post)
    (hbrange : st.brange = (req.primary id).head?)
    (hinside : ∀ m ∈ inside, req.start ≤ m.lfStart ∧ m.lfEnd ≤ req.stop)
    (hlast : req.start ≤ last.lfStart) (hpost : ∀ a ∈ post, last.lfEnd < a.lfStart) :
    ∃ st', clipLoop req first last.lfId fuel st = some st' ∧ Clipped req bound st st'
        (intervals pre ++ req.written ++ above req.stop last.interval ++ intervals post)
        (inside ++ [last]) ∧ RightClip req (pre ++ req.primary id) last post (req.primary id).head?
        (ownRanges req.owner (st'.before ++ st'.after)) st'.brange := by
  have hprimary : PrimaryLast req (ownRanges req.owner st.before) st.brange := by
    rw [hbefore, hbrange]
    exact primaryLast_primary req id pre
  have hcursor : ClipCursor req bound st [] inside last post := by
    refine ⟨htidy, hafter, Nat.zero_le _, ?_, ?_, hinside, hlast, hpost⟩
    · intro b hb
      cases hb
    · intro b hb
      rw [append_nil]
      exact (hprimary b hb).1
  obtain ⟨st', hsome, hframe, hclip, hwake⟩ := clipLoop_enclosed first hfuel hcursor
  rw [append_nil] at hclip
  obtain ⟨hfused, hmem⟩ := hclip.fused hprimary
  rw [hbefore] at hfused hclip
  rw [hbrange] at hclip
  refine ⟨st', hsome, ⟨hframe, ?_, hmem, hwake⟩, hclip⟩
  rw [intervals_append, intervals_primary] at hfused
  exact hfused

theorem length_clipLeft_after (req : Request) (range : LockfRange) (st : ClipState) :
    (clipLeft req range st).after.length ≤ st.after.length := by
  unfold clipLeft
  split
  · split_ifs
    · exact length_filter_le _ _
    · exact le_rfl
    · exact le_rfl
  · split_ifs
    · exact le_rfl
    · exact le_rfl

/-- The cursor stands before a range that starts before the request. -/
structure AtFirst (req : Request) (bound id : ℕ) (st : ClipState) (range : LockfRange)
    (rest : List LockfRange) : Prop where
  after : st.after = range :: rest
  tidy : Tidy bound (st.before ++ range :: rest)
  owner : range.lfOwner = req.owner
  brange : st.brange = (req.primary id).head?
  other : st.brange.map LockfRange.lfId ≠ some range.lfId
  start : range.lfStart < req.start
  reach : req.start ≤ range.lfEnd + 1

section

variable {rest : List LockfRange} (h : AtFirst req bound id st range rest)
include h

theorem AtFirst.clipLeft (hrest : ownRanges req.owner rest = req.primary id ++ post) :
    LeftClipped req bound range (req.primary id) post (st.leave req range rest)
      (clipLeft req range (st.leave req range rest)) := by
  have hsingle : (req.primary id).length ≤ 1 := by
    unfold Request.primary
    split_ifs <;> simp
  exact clipLeft_spec _ h.tidy h.owner h.reach hrest h.brange hsingle

theorem AtFirst.fuel : st.before.length + st.after.length = st.before.length + rest.length + 1 := by
  rw [h.after, length_cons, add_assoc]

theorem clipLoop_first (hrest : ownRanges req.owner rest = req.primary id ++ post) :
    ∃ st', clipLoop req range.lfId range.lfId (st.before.length + st.after.length) st = some st' ∧
      Clipped req bound st st' (intervals (ownRanges req.owner st.before) ++
          below req.start range.interval ++ req.written ++ intervals post) [range] ∧
      ∃ kept b, LeftClip req (ownRanges req.owner st.before) range (req.primary id) kept b ∧
        ownRanges req.owner (st'.before ++ st'.after) = kept ++ post := by
  obtain ⟨hframe, ahead, hown, -, -, hclip, hwake⟩ := h.clipLeft hrest
  obtain ⟨hfused, hprimary⟩ := hclip.fused h.start h.reach
  refine ⟨_, ?_, ⟨⟨hframe.tidy, ?_, ?_⟩, ?_, ?_, ?_⟩, _, _, hclip, ?_⟩
  · rw [h.fuel, clipLoop_left h.after h.owner h.other h.start rfl, if_pos rfl]
  · rw [hframe.others, h.after]
  · rw [hframe.count, h.after]
  · rw [ownRanges_append, hown, ← append_assoc, intervals_append]
    exact hfused.append_right _
  · intro b hb
    obtain ⟨⟨init, hinit⟩, -, hmatch⟩ := hprimary b hb
    refine ⟨?_, hmatch⟩
    rw [ownRanges_append, hown, ← append_assoc, hinit]
    simp
  · rw [hwake]
    simp
  · rw [ownRanges_append, hown, append_assoc]

theorem clipLoop_across
    (hrest : ownRanges req.owner rest = req.primary id ++ (inside ++ last :: post))
    (hinside : ∀ m ∈ inside, req.start ≤ m.lfStart ∧ m.lfEnd ≤ req.stop)
    (hlast : req.start ≤ last.lfStart) (hpost : ∀ a ∈ post, last.lfEnd < a.lfStart) :
    ∃ st', clipLoop req range.lfId last.lfId (st.before.length + st.after.length) st = some st' ∧
      Clipped req bound st st' (intervals (ownRanges req.owner st.before) ++
          below req.start range.interval ++ req.written ++
          above req.stop last.interval ++ intervals post) (range :: inside ++ [last]) ∧
      ∃ kept b, LeftClip req (ownRanges req.owner st.before) range (req.primary id) kept b ∧
        RightClip req kept last post b (ownRanges req.owner (st'.before ++ st'.after))
          st'.brange := by
  obtain ⟨hframe, ahead, hown, hshort, hahead, hclip, hwake⟩ := h.clipLeft hrest
  obtain ⟨hfused, hprimary⟩ := hclip.fused h.start h.reach
  have hne : range.lfId ≠ last.lfId := by
    have hmem : last ∈ ownRanges req.owner rest := by
      rw [hrest]
      simp
    exact (h.tidy.id_ne.2 last (mem_ownRanges.mp hmem).1).symm
  have hcursor : ClipCursor req bound (clipLeft req range (st.leave req range rest))
      ahead inside last post := by
    refine ⟨hframe.tidy, ?_, hshort, hahead, ?_, hinside, hlast, hpost⟩
    · rw [hown, append_assoc]
    · exact fun b hb => (hprimary b hb).1
  have hlength := (length_clipLeft_after req range (st.leave req range rest)).trans
    (Nat.le_add_left rest.length st.before.length)
  obtain ⟨st', hsome, hframe', hclip', hwake'⟩ := clipLoop_enclosed range.lfId hlength hcursor
  obtain ⟨hfused', hmem⟩ := hclip'.fused hprimary
  have hjoined : ClipFrame req bound st st' := by
    constructor
    · exact hframe'.tidy
    · rw [hframe'.others, hframe.others, h.after]
    · rw [hframe'.count, hframe.count, h.after]
  refine ⟨st', ?_, ⟨hjoined, ?_, hmem, ?_⟩, _, _, hclip, hclip'⟩
  · rw [h.fuel, clipLoop_left h.after h.owner h.other h.start rfl, if_neg hne]
    exact hsome
  · apply Fused.trans _ hfused'
    exact (hfused.append_right _).append_right _
  · rw [hwake', hwake]
    simp [Bool.or_assoc]

end

end DragonFly.AdvLock
