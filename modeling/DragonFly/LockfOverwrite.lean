import DragonFly.LockfFind

/-!
# Overwriting ranges of the owner

Where the owner already has ranges on the requested bytes, the primary range is
put into the list, a range that reaches beyond the request on both sides is
divided, and the clip loop and the merge with the neighbours do the rest.
-/

namespace DragonFly.AdvLock

open IntervalMap List LockfRange

/-! ## Merging with neighbours -/

/-- The list after ranges have been merged, with the change of the count. -/
structure Merged (owner bound : ℕ) (list list' : List LockfRange)
    (diff : ℤ) : Prop where
  loss : diff ≤ 0
  keeps : ∀ P : LockfRange → Prop, (∀ a b, P a → P b → b.lfStart = a.lfEnd + 1 → P (a.extend b)) →
      (∀ range ∈ ownRanges owner list, P range) → ∀ range ∈ ownRanges owner list', P range
  tidy : Tidy bound list'
  others : otherRanges owner list' = otherRanges owner list
  fused : Fused (intervals (ownRanges owner list)) (intervals (ownRanges owner list'))
  total : posixTotal (ownRanges owner list') = posixTotal (ownRanges owner list) + diff

variable {owner bound : ℕ} {list : List LockfRange}

theorem Merged.refl (h : Tidy bound list) : Merged owner bound list list 0 :=
  ⟨le_rfl, fun _ _ hall => hall, h, rfl, .refl, (add_zero _).symm⟩

theorem Merged.trans (h : Merged owner bound list list' diff)
    (h' : Merged owner bound list' list'' diff') :
    Merged owner bound list list'' (diff + diff') := by
  refine ⟨add_nonpos h.loss h'.loss, fun P hjoin hall => h'.keeps P hjoin (h.keeps P hjoin hall),
    h'.tidy, h'.others.trans h.others, h.fused.trans h'.fused, ?_⟩
  rw [h'.total, h.total, add_assoc]

variable {before after : List LockfRange} {range : LockfRange}

theorem Merged.extend (h : Tidy bound (before ++ range :: other :: after))
    (hrange : range.lfOwner = owner) (hother : other.lfOwner = owner)
    (hmeet : other.lfStart = range.lfEnd + 1)
    (hvalue : range.interval.value = other.interval.value) :
    Merged owner bound (before ++ range :: other :: after)
      (before ++ range.extend other :: after) (-posixCount other) := by
  have hextend : (range.extend other).lfOwner = owner := hrange
  constructor
  · unfold posixCount
    split_ifs <;> simp
  · intro P hjoin hall
    simp only [ownRanges_append, ownRanges_cons_own, hrange, hother, hextend, mem_append,
      mem_cons] at hall ⊢
    rintro a (ha | rfl | ha)
    · exact hall a (Or.inl ha)
    · exact hjoin range other (hall range (by simp)) (hall other (by simp)) hmeet
    · exact hall a (by simp [ha])
  · have hsub : Tidy bound (before ++ range :: after) := by
      apply h.sublist
      exact List.Sublist.append_left (List.Sublist.cons_cons range (sublist_cons_self other after))
        before
    apply hsub.congr
    simp [LockfRange.key, LockfRange.extend]
  · rw [otherRanges_append, otherRanges_append, otherRanges_cons_own hextend,
      otherRanges_cons_own hrange, otherRanges_cons_own hother]
  · rw [ownRanges_append, ownRanges_append, ownRanges_cons_own hextend,
      ownRanges_cons_own hrange, ownRanges_cons_own hother, intervals_append,
      intervals_append]
    exact .fuse .refl hmeet.symm hvalue
  · rw [ownRanges_append, ownRanges_append, ownRanges_cons_own hextend,
      ownRanges_cons_own hrange, ownRanges_cons_own hother,
      posixTotal_append, posixTotal_append, posixTotal_cons,
      posixTotal_cons, posixTotal_cons, posixCount_extend]
    ring

variable {req : Request} {b : LockfRange}

section

variable (h : Tidy bound (before ++ b :: after)) (howner : b.lfOwner = req.owner)
  (hmatch : lfMatch b req.type req.flags = true)
include h howner hmatch

theorem mergePrev_spec :
    Merged req.owner bound (before ++ b :: after)
        ((mergePrev req before b).1 ++ (mergePrev req before b).2.1 :: after)
        (mergePrev req before b).2.2 ∧ (mergePrev req before b).2.1.lfOwner = req.owner ∧
      lfMatch (mergePrev req before b).2.1 req.type req.flags = true := by
  unfold mergePrev
  cases hlast : before.getLast? with
  | none => exact ⟨.refl h, howner, hmatch⟩
  | some range =>
    simp only
    split_ifs with hmerge
    · obtain ⟨hrange, hend, hrmatch⟩ := hmerge
      have hsplit : before = before.dropLast ++ [range] :=
        (dropLast_append_getLast? range hlast).symm
      have hlist : before ++ b :: after = before.dropLast ++ range :: b :: after := by
        nth_rewrite 1 [hsplit]
        rw [append_assoc, singleton_append]
      refine ⟨?_, hrange, hrmatch⟩
      rw [hlist] at h ⊢
      apply Merged.extend h hrange howner
      · omega
      · rw [lfMatch_iff.mp hrmatch, lfMatch_iff.mp hmatch]
    · exact ⟨.refl h, howner, hmatch⟩

theorem mergeNext_spec :
    Merged req.owner bound (before ++ b :: after)
      (before ++ (mergeNext req b after).1 :: (mergeNext req b after).2.1)
      (mergeNext req b after).2.2 := by
  unfold mergeNext
  cases after with
  | nil => exact .refl h
  | cons range rest =>
    simp only
    split_ifs with hmerge
    · obtain ⟨hrange, hstart, hrmatch⟩ := hmerge
      apply Merged.extend h howner hrange hstart
      rw [lfMatch_iff.mp hrmatch, lfMatch_iff.mp hmatch]
    · exact .refl h

end

theorem mergeAdjacent_spec (h : Tidy bound list)
    (hprimary : ∀ b, brange = some b → b ∈ ownRanges req.owner list ∧
      lfMatch b req.type req.flags = true) :
    Merged req.owner bound list (mergeAdjacent req list brange).1
      (mergeAdjacent req list brange).2 := by
  cases brange with
  | none => exact .refl h
  | some b =>
    obtain ⟨hmem, hmatch⟩ := hprimary b rfl
    have hown := mem_ownRanges.mp hmem
    obtain ⟨xs, ys, rfl⟩ := append_of_mem hown.1
    have hsplit : tailqSplit b.lfId (xs ++ b :: ys) = (xs, b :: ys) := tailqSplit_eq h.id_ne.1 rfl
    simp only [mergeAdjacent, hsplit, tail_cons]
    obtain ⟨hprev, howner, hmatch'⟩ := mergePrev_spec h hown.2 hmatch
    exact hprev.trans (mergeNext_spec hprev.tidy howner hmatch')

/-! ## The start of the clip loop -/

variable {id : ℕ} {xs ys : List LockfRange}

theorem insertPrimary_spec (h : Tidy id list) (hown : ownRanges req.owner list = xs ++ ys)
    (hxs : ∀ a ∈ xs, a.lfStart < req.start) (hys : ∀ a ∈ ys, req.start ≤ a.lfStart) :
    Tidy (id + 2) (insertPrimary req list id (pointOf req.start list)) ∧
      (∀ a ∈ insertPrimary req list id (pointOf req.start list), a.lfId ≠ id + 1) ∧
      otherRanges req.owner (insertPrimary req list id (pointOf req.start list)) =
        otherRanges req.owner list ∧ ownRanges req.owner
          (insertPrimary req list id (pointOf req.start list)) = xs ++ (req.primary id ++ ys) := by
  have hwide : Tidy (id + 2) list := by
    refine ⟨h.sorted, h.distinct, ?_⟩
    intro a ha
    have hlt := h.bounded a ha
    omega
  unfold insertPrimary Request.primary
  split_ifs with htype
  · refine ⟨hwide, ?_, rfl, hown⟩
    intro a ha
    have hlt := h.bounded a ha
    omega
  · have hinsert : lfInsert list (req.range id) (pointOf req.start list) =
        insertFrom (req.range id) list := lfInsert_pointOf h (req.range id)
    have howner : (req.range id).lfOwner = req.owner := rfl
    rw [hinsert]
    refine ⟨?_, ?_, otherRanges_insertFrom howner h.sorted, ?_⟩
    · apply hwide.insertFrom
      · intro a ha
        exact (h.bounded a ha).ne
      · simp [Request.range]
    · intro a ha
      obtain ⟨us, vs, hlist, hsplit, -, -⟩ := insertFrom_split (req.range id) h.sorted
      rw [hsplit, mem_append, mem_cons] at ha
      rcases ha with ha | rfl | ha
      · have hlt := h.bounded a (by simp [hlist, ha])
        omega
      · simp [Request.range]
      · have hlt := h.bounded a (by simp [hlist, ha])
        omega
    · rw [ownRanges_insertFrom howner h.sorted, hown, insertFrom_between hxs hys]
      rfl

theorem posixTotal_primary (req : Request) (id : ℕ) :
    posixTotal (req.primary id) = if req.type ≠ .unlck ∧ req.flags.posix = true then 1 else 0 := by
  unfold Request.primary
  by_cases htype : req.type = .unlck
  · simp [htype, posixTotal]
  · by_cases hposix : req.flags.posix = true
    · simp [htype, hposix, posixTotal, posixCount, Request.range]
    · simp [htype, hposix, posixTotal, posixCount, Request.range]

/-! ## What the clip loop leaves -/

/-- The owner's ranges before and after the loop; `first` and `last` are the first
and the last range it meets. -/
inductive Reshaped (req : Request) (id : ℕ) (first last : LockfRange) :
    List LockfRange → List LockfRange → Prop
  | within {b : Option LockfRange} (hfirst : (inside ++ [last]).head? = some first)
      (hlast : last.lfStart ≤ req.stop)
      (h : RightClip req (pre ++ req.primary id) last post (req.primary id).head? own b) :
      Reshaped req id first last (pre ++ (inside ++ [last]) ++ post) own
  | cut {b : Option LockfRange} (hsame : first = last) (hstart : first.lfStart < req.start)
      (hend : first.lfEnd ≤ req.stop) (h : LeftClip req pre first (req.primary id) kept b) :
      Reshaped req id first last (pre ++ [first] ++ post) (kept ++ post)
  | across {b b' : Option LockfRange} (hstart : first.lfStart < req.start)
      (hend : req.start ≤ first.lfEnd + 1) (hlast : last.lfStart ≤ req.stop)
      (hapart : first.lfEnd < last.lfStart) (h : LeftClip req pre first (req.primary id) kept b)
      (h' : RightClip req kept last post b own b') :
      Reshaped req id first last (pre ++ (first :: (inside ++ [last])) ++ post) own
  | divided {b b' : Option LockfRange} (hsame : first = last) (hstart : first.lfStart < req.start)
      (hend : req.stop < first.lfEnd)
      (h : LeftClip req pre (first.leftPart req.start) (req.primary id) kept b)
      (h' : RightClip req kept (first.rightPart (id + 1) req.stop) post b own b') :
      Reshaped req id first last (pre ++ [first] ++ post) own

/-- The loop has written the request over the owner's ranges of `list`. -/
structure Overwritten (req : Request) (id : ℕ) (list : List LockfRange)
    (first last : LockfRange) (clip : ClipState) : Prop where
  shape : Reshaped req id first last (ownRanges req.owner list)
    (ownRanges req.owner (clip.before ++ clip.after))
  tidy : Tidy (id + 2) (clip.before ++ clip.after)
  others : otherRanges req.owner (clip.before ++ clip.after) = otherRanges req.owner list
  fused : Fused (splice req.start req.stop req.written (intervals (ownRanges req.owner list)))
    (intervals (ownRanges req.owner (clip.before ++ clip.after)))
  primary : ∀ b, clip.brange = some b → b ∈ ownRanges req.owner (clip.before ++ clip.after) ∧
      lfMatch b req.type req.flags = true
  count : clip.count = initialCount req first last +
    (posixTotal (ownRanges req.owner (clip.before ++ clip.after)) -
      posixTotal (ownRanges req.owner list))
  wakeup : clip.wakeupNeeded = (req.met list).any req.wakes

structure ClipReady (req : Request) (id : ℕ) (list : List LockfRange)
    (count : ℤ) (start : ClipState) : Prop where
  tidy : Tidy (id + 2) (start.before ++ start.after)
  others : otherRanges req.owner (start.before ++ start.after) = otherRanges req.owner list
  brange : start.brange = (req.primary id).head?
  count : start.count = count + (posixTotal (ownRanges req.owner (start.before ++ start.after)) -
      posixTotal (ownRanges req.owner list))
  wakeup : start.wakeupNeeded = false

variable {first last : LockfRange}

theorem ClipReady.overwritten {expected : List (Interval (LockType × Bool))}
    (h : ClipReady req id list (initialCount req first last) start)
    (hclip : Clipped req (id + 2) start clip expected seen)
    (hexpected : expected = splice req.start req.stop req.written
      (intervals (ownRanges req.owner list)))
    (hseen : seen.any req.wakes = (req.met list).any req.wakes)
    (hshape : Reshaped req id first last (ownRanges req.owner list)
      (ownRanges req.owner (clip.before ++ clip.after))) :
    Overwritten req id list first last clip := by
  refine ⟨hshape, hclip.frame.tidy, ?_, ?_, hclip.primary, ?_, ?_⟩
  · rw [hclip.frame.others, h.others]
  · rw [← hexpected]
    exact hclip.fused
  · have hcount := hclip.frame.count
    have hstart := h.count
    linarith
  · rw [hclip.wakeup, h.wakeup, Bool.false_or, hseen]

theorem brange_eq_head (req : Request) (id : ℕ) :
    (if req.type = .unlck then none else some (req.range id)) = (req.primary id).head? := by
  unfold Request.primary
  split_ifs <;> rfl

theorem clipStart_single (hdef : clipStart req list id (pointOf req.start list) first last = start)
    (h : Tidy id list) (hdouble : doubleClip req first last = false)
    (hown : ownRanges req.owner list = xs ++ ys) (hxs : ∀ a ∈ xs, a.lfStart < req.start)
    (hys : ∀ a ∈ ys, req.start ≤ a.lfStart)
    (hfirst : xs ++ (req.primary id ++ ys) = us ++ first :: vs) :
    ∃ rest, start.after = first :: rest ∧ ownRanges req.owner start.before = us ∧
      ownRanges req.owner rest = vs ∧
      ClipReady req id list (initialCount req first last) start := by
  obtain ⟨htidy, -, hothers, hlist⟩ := insertPrimary_spec h hown hxs hys
  rw [hfirst] at hlist
  obtain ⟨before, rest, hsplit, hbefore, hrest, htailq⟩ := htidy.split_own hlist
  have hstart : clipStart req list id (pointOf req.start list) first last =
      { before := before
        after := first :: rest
        brange := (req.primary id).head?
        count := initialCount req first last + posixTotal (req.primary id)
        wakeupNeeded := false } := by
    simp only [clipStart, clipList, hdouble, Bool.false_eq_true, if_false,
      htailq, brange_eq_head, posixTotal_primary]
    split_ifs
    · rfl
    · rw [add_zero]
  rw [← hdef, hstart]
  refine ⟨rest, rfl, hbefore, hrest, ?_⟩
  constructor
  · rw [hsplit] at htidy
    exact htidy
  · rw [hsplit] at hothers
    exact hothers
  · rfl
  · simp only
    rw [← hsplit, hlist, ← hfirst, hown, posixTotal_append, posixTotal_append, posixTotal_append]
    ring
  · rfl

/-- The owner's ranges before, on and behind the requested bytes. -/
structure Around (req : Request) (list pre ms post : List LockfRange) :
    Prop where
  bytes : req.start ≤ req.stop
  ordered : Ordered (intervals (ownRanges req.owner list))
  own : ownRanges req.owner list = pre ++ ms ++ post
  met : req.met list = ms
  before : ∀ a ∈ pre, a.lfEnd < req.start
  behind : ∀ a ∈ post, req.stop < a.lfStart

theorem exists_around
    (hreq : req.start ≤ req.stop) (h : Ordered (intervals (ownRanges req.owner list))) :
    ∃ pre post, Around req list pre (req.met list) post := by
  obtain ⟨pre, post, hown, hpre, hpost⟩ := own_split req h
  exact ⟨pre, post, hreq, h, hown, rfl, hpre, hpost⟩

section Cases

variable {req : Request} {list pre ms post : List LockfRange}

section

variable (h : Around req list pre ms post)
include h

theorem Around.proper (ha : a ∈ pre ++ ms ++ post) : a.lfStart ≤ a.lfEnd := by
  rw [← h.own] at ha
  exact h.ordered.proper a.interval (mem_map_of_mem ha)

theorem Around.apart : (pre ++ ms ++ post).Pairwise fun a b => a.lfEnd < b.lfStart := by
  have hapart := h.ordered.apart
  rw [h.own, intervals, pairwise_map] at hapart
  exact hapart

theorem Around.mem (ha : a ∈ ms) : a ∈ list ∧ a.lfOwner = req.owner := by
  apply mem_ownRanges.mp
  rw [h.own]
  simp [ha]

theorem Around.meets (ha : a ∈ ms) : req.start ≤ a.lfEnd ∧ a.lfStart ≤ req.stop := by
  rw [← h.met] at ha
  have hmeets := (mem_filter.mp ha).2
  simpa [Request.meets] using hmeets

theorem Around.splice :
    splice req.start req.stop req.written (intervals (ownRanges req.owner list)) =
      intervals pre ++ (intervals ms).flatMap (below req.start) ++
        req.written ++ (intervals ms).flatMap (above req.stop) ++ intervals post := by
  rw [h.own, intervals_append, intervals_append]
  apply splice_append h.bytes
  · intro a ha
    obtain ⟨range, hrange, rfl⟩ := mem_map.mp ha
    exact ⟨h.proper (by simp [hrange]), h.before range hrange⟩
  · intro a ha
    obtain ⟨range, hrange, rfl⟩ := mem_map.mp ha
    exact ⟨h.proper (by simp [hrange]), h.behind range hrange⟩

end

variable {inside : List LockfRange}

/-- Of the ranges that are met only the first can start before the request, and
only the last can end behind it. -/
theorem Around.inner (h : Around req list pre (inside ++ [last]) post) :
    (∀ m ∈ inside, m.lfEnd ≤ req.stop) ∧ (∀ a ∈ post, last.lfEnd < a.lfStart) ∧
      (intervals (inside ++ [last])).flatMap (above req.stop) = above req.stop last.interval := by
  have hapart := h.apart
  rw [append_assoc, append_assoc, pairwise_append, pairwise_append, singleton_append, pairwise_cons]
    at hapart
  have hinside : ∀ m ∈ inside, m.lfEnd ≤ req.stop := by
    intro m hm
    have hlt := hapart.2.1.2.2 m hm last (by simp)
    have hlast := (h.meets (by simp : last ∈ inside ++ [last])).2
    omega
  refine ⟨hinside, hapart.2.1.2.1.1, ?_⟩
  have hnone : (intervals inside).flatMap (above req.stop) = [] := by
    rw [flatMap_eq_nil_iff]
    intro a ha
    obtain ⟨m, hm, rfl⟩ := mem_map.mp ha
    exact above_of_le (hinside m hm)
  rw [intervals_append, flatMap_append, hnone]
  simp [intervals]

theorem Around.later (h : Around req list pre (first :: rest) post) :
    (∀ m ∈ rest, req.start ≤ m.lfStart) ∧ (intervals (first :: rest)).flatMap (below req.start) =
        below req.start first.interval := by
  have hapart := h.apart
  rw [append_assoc, pairwise_append, cons_append, pairwise_cons] at hapart
  have hrest : ∀ m ∈ rest, req.start ≤ m.lfStart := by
    intro m hm
    have hlt := hapart.2.1.1 m (by simp [hm])
    have hfirst := (h.meets (by simp : first ∈ first :: rest)).1
    omega
  refine ⟨hrest, ?_⟩
  have hnone : (intervals rest).flatMap (below req.start) = [] := by
    rw [flatMap_eq_nil_iff]
    intro a ha
    obtain ⟨m, hm, rfl⟩ := mem_map.mp ha
    exact below_of_le (hrest m hm)
  have hcons : intervals (first :: rest) = first.interval :: intervals rest := rfl
  rw [hcons, flatMap_cons, hnone, append_nil]

theorem Around.before_start (h : Around req list pre ms post) :
    ∀ a ∈ pre, a.lfStart < req.start := by
  intro a ha
  have hproper := h.proper (by simp [ha] : a ∈ pre ++ ms ++ post)
  have hlow := h.before a ha
  omega

theorem Around.behind_start (h : Around req list pre ms post) :
    ∀ a ∈ post, req.start ≤ a.lfStart := by
  intro a ha
  have hhigh := h.behind a ha
  have hbytes := h.bytes
  omega

variable {id : ℕ} {first last : LockfRange}

theorem Around.first_ne_last
    (htidy : Tidy id list) (h : Around req list pre (first :: (inside ++ [last])) post) :
    first.lfId ≠ last.lfId := by
  have hsub : List.Sublist (pre ++ first :: (inside ++ [last] ++ post))
      list := by
    rw [← cons_append, ← append_assoc, ← h.own]
    exact filter_sublist
  exact ((htidy.sublist hsub).id_ne.2 last (by simp)).symm

theorem Around.before_or_first
    (h : Around req list pre ms post) (hstart : first.lfStart < req.start) :
    ∀ a ∈ pre ++ [first], a.lfStart < req.start := by
  intro a ha
  rcases mem_append.mp ha with ha | ha
  · exact h.before_start a ha
  · rw [mem_singleton.mp ha]
    exact hstart

variable {start : ClipState}

theorem Around.within {rest : List LockfRange}
    (hdef : clipStart req list id (pointOf req.start list) first last = start)
    (htidy : Tidy id list) (h : Around req list pre ms post)
    (hrest : ms = first :: rest) (hinside : ms = inside ++ [last])
    (hstart : req.start ≤ first.lfStart) :
    ∃ clip, clipLoop req first.lfId last.lfId
        (start.before.length + start.after.length) start = some clip ∧
      Overwritten req id list first last clip := by
  have hdouble : doubleClip req first last = false := by
    simp only [doubleClip, decide_eq_false_iff_not]
    omega
  have hlater := h
  rw [hrest] at hlater
  have hlate := hlater.later
  have hms : ∀ m ∈ ms, req.start ≤ m.lfStart := by
    rw [hrest]
    intro m hm
    rcases mem_cons.mp hm with rfl | hm
    · exact hstart
    · exact hlate.1 m hm
  have hinner := h
  rw [hinside] at hinner
  have hin := hinner.inner
  have hown : ownRanges req.owner list = pre ++ (ms ++ post) := by
    rw [h.own, append_assoc]
  have hys : ∀ a ∈ ms ++ post, req.start ≤ a.lfStart := by
    intro a ha
    rcases mem_append.mp ha with ha | ha
    · exact hms a ha
    · exact h.behind_start a ha
  have hfirst : pre ++ (req.primary id ++ (ms ++ post)) =
      (pre ++ req.primary id) ++ first :: (rest ++ post) := by
    rw [hrest]
    simp
  obtain ⟨tail, hafter, hownBefore, hownTail, hready⟩ :=
    clipStart_single hdef htidy hdouble hown h.before_start hys hfirst
  have hmem := h.mem (hrest ▸ mem_cons_self)
  have hownAfter : ownRanges req.owner start.after = inside ++ last :: post := by
    rw [hafter, ownRanges_cons_own hmem.2, hownTail, ← cons_append, ← hrest, hinside, append_assoc,
      singleton_append]
  obtain ⟨clip, hsome, hclip, hright⟩ := clipLoop_within first.lfId
    (Nat.le_add_left start.after.length start.before.length) hready.tidy
    hownBefore hownAfter hready.brange
    (fun m hm => ⟨hms m (by simp [hinside, hm]), hin.1 m hm⟩)
    (hms last (by simp [hinside])) hin.2.1
  refine ⟨clip, hsome, hready.overwritten hclip ?_ ?_ ?_⟩
  · have hnone : below req.start first.interval = [] := below_of_le hstart
    rw [h.splice, hinside, hin.2.2, ← hinside, hrest, hlate.2, hnone, append_nil]
  · rw [h.met, hinside]
  · have hhead : (inside ++ [last]).head? = some first := by
      rw [← hinside, hrest]
      rfl
    rw [h.own, hinside]
    exact .within hhead (hinner.meets (by simp)).2 hright

theorem primary_id (h : range.lfId ≠ id) :
    (req.primary id).head?.map LockfRange.lfId ≠ some range.lfId := by
  unfold Request.primary
  split_ifs
  · simp
  · simp only [head?_cons, Option.map_some, ne_eq, Option.some.injEq]
    exact h.symm

theorem ClipReady.atFirst {count : ℤ} {rest : List LockfRange}
    (h : ClipReady req id list count start) (hafter : start.after = range :: rest)
    (hid : range.lfId < id) (howner : range.lfOwner = req.owner)
    (hstart : range.lfStart < req.start) (hreach : req.start ≤ range.lfEnd + 1) :
    AtFirst req (id + 2) id start range rest := by
  refine ⟨hafter, hafter ▸ h.tidy, howner, h.brange, ?_, hstart, hreach⟩
  rw [h.brange]
  exact primary_id hid.ne

/-- One range is met, which starts before the request and does not go beyond
it. -/
theorem Around.cut (hdef : clipStart req list id (pointOf req.start list) first first = start)
    (htidy : Tidy id list) (h : Around req list pre [first] post)
    (hstart : first.lfStart < req.start) (hend : first.lfEnd ≤ req.stop) :
    ∃ clip, clipLoop req first.lfId first.lfId
        (start.before.length + start.after.length) start = some clip ∧
      Overwritten req id list first first clip := by
  have hdouble : doubleClip req first first = false := by
    simp only [doubleClip, decide_eq_false_iff_not]
    omega
  have hmem := h.mem mem_cons_self
  have hlow := h.before_or_first hstart
  have hfirst : (pre ++ [first]) ++ (req.primary id ++ post) =
      pre ++ first :: (req.primary id ++ post) := by
    simp
  obtain ⟨tail, hafter, hownBefore, hownTail, hready⟩ :=
    clipStart_single hdef htidy hdouble h.own hlow h.behind_start hfirst
  have hreach : req.start ≤ first.lfEnd + 1 := by
    have hmeets := (h.meets (by simp : first ∈ [first])).1
    omega
  obtain ⟨clip, hsome, hclip, kept, b, hleft, hkept⟩ := clipLoop_first
    (hready.atFirst hafter (htidy.bounded first hmem.1) hmem.2 hstart hreach) hownTail
  refine ⟨clip, hsome, hready.overwritten hclip ?_ ?_ ?_⟩
  · have hnone : (intervals [first]).flatMap (above req.stop) = [] := by
      have habove : above req.stop first.interval = [] := above_of_le hend
      simp [intervals, habove]
    rw [h.splice, hnone, h.later.2, hownBefore, append_nil]
  · rw [h.met]
  · rw [h.own, hkept]
    rw [hownBefore] at hleft
    exact .cut rfl hstart hend hleft

theorem Around.across (hdef : clipStart req list id (pointOf req.start list) first last = start)
    (htidy : Tidy id list) (h : Around req list pre (first :: (inside ++ [last])) post)
    (hstart : first.lfStart < req.start) :
    ∃ clip, clipLoop req first.lfId last.lfId
        (start.before.length + start.after.length) start = some clip ∧
      Overwritten req id list first last clip := by
  have hmem := h.mem mem_cons_self
  have hne := h.first_ne_last htidy
  have hdouble : doubleClip req first last = false := by
    simp [doubleClip, hne]
  have hlow := h.before_or_first hstart
  have hhigh : ∀ a ∈ inside ++ last :: post, req.start ≤ a.lfStart := by
    intro a ha
    rw [← singleton_append, ← append_assoc] at ha
    rcases mem_append.mp ha with ha | ha
    · exact h.later.1 a ha
    · exact h.behind_start a ha
  have hown : ownRanges req.owner list = (pre ++ [first]) ++ (inside ++ last :: post) := by
    rw [h.own]
    simp
  have hfirst : (pre ++ [first]) ++ (req.primary id ++ (inside ++ last :: post)) =
        pre ++ first :: (req.primary id ++ (inside ++ last :: post)) := by
    simp
  obtain ⟨tail, hafter, hownBefore, hownTail, hready⟩ :=
    clipStart_single hdef htidy hdouble hown hlow hhigh hfirst
  have hreach : req.start ≤ first.lfEnd + 1 := by
    have hmeets := (h.meets mem_cons_self).1
    omega
  have hinner : Around req list pre ((first :: inside) ++ [last]) post := h
  have hin := hinner.inner
  obtain ⟨clip, hsome, hclip, kept, b, hleft, hright⟩ := clipLoop_across
    (hready.atFirst hafter (htidy.bounded first hmem.1) hmem.2 hstart hreach) hownTail
    (fun m hm => ⟨h.later.1 m (by simp [hm]), hin.1 m (by simp [hm])⟩)
    (h.later.1 last (by simp)) hin.2.1
  refine ⟨clip, hsome, hready.overwritten hclip ?_ ?_ ?_⟩
  · rw [h.splice, h.later.2, ← cons_append, hin.2.2, hownBefore]
  · rw [h.met]
    rfl
  · have hapart := h.apart
    rw [append_assoc, pairwise_append, cons_append, pairwise_cons] at hapart
    rw [hownBefore] at hleft
    rw [h.own]
    exact .across hstart hreach (h.meets (by simp)).2 (hapart.2.1.1 last (by simp)) hleft hright

section

variable (hdef : clipStart req list id (pointOf req.start list) first first = start)
include hdef

theorem Around.clipStart_double (htidy : Tidy id list) (h : Around req list pre [first] post)
    (hstart : first.lfStart < req.start) (hend : req.stop < first.lfEnd) :
    ∃ rest, start.after = first.leftPart req.start :: rest ∧
      ownRanges req.owner start.before = pre ∧ ownRanges req.owner rest = req.primary id ++
        ([] ++ first.rightPart (id + 1) req.stop :: post) ∧
      ClipReady req id list (initialCount req first first) start := by
  have hbytes := h.bytes
  have hdouble : doubleClip req first first = true := by
    simp only [doubleClip, decide_eq_true_eq]
    exact ⟨hstart, trivial, hend⟩
  have howner := (h.mem mem_cons_self).2
  have hlow := h.before_or_first hstart
  obtain ⟨hprimary, hfresh, hothers, hlist⟩ := insertPrimary_spec htidy h.own hlow h.behind_start
  rw [append_assoc, singleton_append] at hlist
  obtain ⟨before, rest, hsplit, hbefore, hrest, -⟩ := hprimary.split_own hlist
  rw [hsplit] at hprimary hfresh hothers hlist
  set left := first.leftPart req.start with hleft
  set right := first.rightPart (id + 1) req.stop with hright
  have hmodified : tailqModify first.lfId
      (fun range => range.leftPart req.start) (before ++ first :: rest) = before ++ left :: rest :=
    tailqModify_middle _ hprimary.id_ne.1 rfl hprimary.id_ne.2
  have hwide : Tidy (id + 2) (before ++ left :: rest) := by
    apply hprimary.congr
    simp [key, hleft, leftPart]
  have hcut : ∀ ys, tailqSplit first.lfId (before ++ left :: ys) =
      (before, left :: ys) := fun ys => tailqSplit_eq hwide.id_ne.1 rfl
  have hpass : insertFrom right (left :: rest) = left :: insertFrom right rest := by
    rw [insertFrom, if_pos]
    simp only [hleft, hright, leftPart, rightPart]
    omega
  have hclipList : clipList req list id (pointOf req.start list) first first =
      before ++ left :: insertFrom right rest := by
    simp only [clipList, hdouble, if_true, hsplit, hmodified, lfInsert, hcut, ← hright, hpass]
  have hrestSorted : rest.Pairwise fun a b => a.lfStart ≤ b.lfStart := by
    have hsorted := hprimary.sorted
    rw [pairwise_append, pairwise_cons] at hsorted
    exact hsorted.2.1.2
  have hrightOwner : right.lfOwner = req.owner := howner
  have hownRest : ownRanges req.owner (insertFrom right rest) =
      req.primary id ++ right :: post := by
    rw [ownRanges_insertFrom hrightOwner hrestSorted, hrest]
    apply insertFrom_between
    · intro a ha
      unfold Request.primary at ha
      split_ifs at ha
      · cases ha
      · rw [mem_singleton] at ha
        subst ha
        simp only [Request.range, hright, rightPart]
        omega
    · intro a ha
      have hhigh := h.behind a ha
      simp only [hright, rightPart]
      omega
  have hleftOwner : left.lfOwner = req.owner := howner
  have hstate : clipStart req list id (pointOf req.start list) first first =
      { before := before
        after := left :: insertFrom right rest
        brange := (req.primary id).head?
        count := initialCount req first first + posixTotal (req.primary id) + posixCount right
        wakeupNeeded := false } := by
    simp only [clipStart, hclipList, hdouble, if_true, hcut, brange_eq_head,
      posixTotal_primary, ← hright]
    split_ifs
    · rfl
    · rw [add_zero]
  rw [← hdef, hstate]
  refine ⟨insertFrom right rest, rfl, hbefore, hownRest, ?_⟩
  constructor
  · have hall : ∀ a ∈ before ++ [left], a.lfStart < right.lfStart := by
      intro a ha
      have hle : a.lfStart ≤ first.lfStart := by
        rcases mem_append.mp ha with ha | ha
        · exact hprimary.start_le.1 a ha
        · rw [mem_singleton.mp ha, hleft]
          exact le_rfl
      simp only [hright, rightPart]
      omega
    have hinsert : before ++ left :: insertFrom right rest =
        insertFrom right (before ++ left :: rest) := by
      have happend := insertFrom_append hall rest
      rw [append_assoc, append_assoc] at happend
      exact happend.symm
    rw [hinsert]
    apply hwide.insertFrom
    · intro a ha
      rcases mem_append.mp ha with ha | ha
      · exact hfresh a (by simp [ha])
      · rcases mem_cons.mp ha with rfl | ha
        · exact hfresh first (by simp)
        · exact hfresh a (by simp [ha])
    · simp [hright, rightPart]
  · simp only
    rw [otherRanges_append, otherRanges_cons_own hleftOwner,
      otherRanges_insertFrom hrightOwner hrestSorted, ← hothers,
      otherRanges_append, otherRanges_cons_own howner]
  · rfl
  · have hsame : posixCount left = posixCount first := rfl
    rw [ownRanges_append, ownRanges_cons_own hleftOwner, hbefore, hownRest,
      h.own, posixTotal_append, posixTotal_cons, posixTotal_append,
      posixTotal_cons, posixTotal_append, posixTotal_append, posixTotal_cons,
      posixTotal_nil, hsame]
    ring
  · rfl

theorem Around.divided (htidy : Tidy id list) (h : Around req list pre [first] post)
    (hstart : first.lfStart < req.start) (hend : req.stop < first.lfEnd) :
    ∃ clip, clipLoop req first.lfId (id + 1)
        (start.before.length + start.after.length) start = some clip ∧
      Overwritten req id list first first clip := by
  have hbytes := h.bytes
  obtain ⟨tail, hafter, hownBefore, hownTail, hready⟩ := h.clipStart_double hdef htidy hstart hend
  have hmem := h.mem mem_cons_self
  have hbehind : ∀ a ∈ post, first.lfEnd < a.lfStart := by
    have hinner : Around req list pre ([] ++ [first]) post := h
    exact hinner.inner.2.1
  obtain ⟨clip, hsome, hclip, kept, b, hleft, hright⟩ := clipLoop_across
    (hready.atFirst hafter (htidy.bounded first hmem.1) hmem.2 hstart
      (by simp [leftPart])) hownTail
    (by simp)
    (by simp only [rightPart]; omega)
    hbehind
  refine ⟨clip, hsome, hready.overwritten hclip ?_ ?_ ?_⟩
  · have hbelow : below req.start (first.leftPart req.start).interval =
        below req.start first.interval := by
      have hleft : (first.leftPart req.start).interval.start < req.start := hstart
      have hright : first.interval.start < req.start := hstart
      rw [below_of_lt hleft, below_of_lt hright]
      simp only [leftPart, interval]
      rw [min_self, min_eq_right (by omega)]
    have habove : above req.stop (first.rightPart (id + 1) req.stop).interval =
          above req.stop first.interval := by
      have hleft : req.stop < (first.rightPart (id + 1) req.stop).interval.stop := hend
      have hright : req.stop < first.interval.stop := hend
      rw [above_of_lt hleft, above_of_lt hright]
      simp only [rightPart, interval]
      rw [max_self, max_eq_right (by omega)]
    have hinner : Around req list pre ([] ++ [first]) post := h
    rw [h.splice, h.later.2, hbelow, habove, hownBefore]
    have habove' := hinner.inner.2.2
    rw [nil_append] at habove'
    rw [habove']
  · rw [h.met]
    simp [Request.wakes, leftPart, rightPart]
  · rw [hownBefore] at hleft
    rw [h.own]
    exact .divided rfl hstart hend hleft hright

end

end Cases

theorem clipLoop_overwritten
    {start : ClipState} (hreq : req.start ≤ req.stop) (htidy : Tidy id list)
    (hordered : Ordered (intervals (ownRanges req.owner list)))
    (hfirst : (req.met list).head? = some first) (hlast : (req.met list).getLast? = some last)
    (hdef : clipStart req list id (pointOf req.start list) first last = start) :
    ∃ clip, clipLoop req first.lfId (if doubleClip req first last then id + 1 else last.lfId)
        (start.before.length + start.after.length) start = some clip ∧
      Overwritten req id list first last clip := by
  obtain ⟨pre, post, h⟩ := exists_around hreq hordered
  obtain ⟨rest, hrest⟩ := head?_eq_some_iff.mp hfirst
  obtain ⟨inside, hinside⟩ := getLast?_eq_some_iff.mp hlast
  by_cases hstart : req.start ≤ first.lfStart
  · have hdouble : doubleClip req first last = false := by
      simp only [doubleClip, decide_eq_false_iff_not]
      omega
    rw [hdouble, if_neg Bool.false_ne_true]
    exact h.within hdef htidy hrest hinside hstart
  · rw [not_le] at hstart
    cases inside with
    | nil =>
      have hsame : last = first := by
        rw [hrest] at hinside
        simp only [nil_append, List.cons.injEq] at hinside
        exact hinside.1.symm
      subst hsame
      rw [hinside, nil_append] at h
      by_cases hend : last.lfEnd ≤ req.stop
      · have hdouble : doubleClip req last last = false := by
          simp only [doubleClip, decide_eq_false_iff_not]
          omega
        rw [hdouble, if_neg Bool.false_ne_true]
        exact h.cut hdef htidy hstart hend
      · rw [not_le] at hend
        have hdouble : doubleClip req last last = true := by
          simp only [doubleClip, decide_eq_true_eq]
          exact ⟨hstart, trivial, hend⟩
        rw [hdouble, if_pos rfl]
        exact h.divided hdef htidy hstart hend
    | cons a inside =>
      have hhead : a = first := by
        rw [hrest] at hinside
        simp only [cons_append, List.cons.injEq] at hinside
        exact hinside.1.symm
      subst hhead
      rw [hinside, cons_append] at h
      have hne := h.first_ne_last htidy
      have hdouble : doubleClip req a last = false := by
        simp [doubleClip, hne]
      rw [hdouble, if_neg Bool.false_ne_true]
      exact h.across hdef htidy hstart

end DragonFly.AdvLock
