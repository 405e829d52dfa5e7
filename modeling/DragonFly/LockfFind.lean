import DragonFly.LockfClipMap

/-!
# Finding the ranges a request meets

The first loop of a request stops at a conflict, or ends with the place of the
new range and with the first and the last range of the owner that the request
meets.
-/

namespace DragonFly.AdvLock

open IntervalMap List Request

/-- A range is neither before nor behind the request. -/
def Request.meets (req : Request) (range : LockfRange) : Bool :=
  req.start ≤ range.lfEnd ∧ range.lfStart ≤ req.stop

def Request.met (req : Request) (list : List LockfRange) : List LockfRange :=
  (ownRanges req.owner list).filter req.meets

/-- A request has to wait for a range of another owner. -/
structure Request.Conflict (req : Request) (range : LockfRange) : Prop where
  owner : range.lfOwner ≠ req.owner
  meets : req.meets range = true
  locks : req.type ≠ .unlck
  exclusive : req.type = .wrlck ∨ range.lfType = .wrlck

/-! ## The loop -/

theorem point_insertPoint (found : Found) (start : ℤ) (range : LockfRange) (next : Option ℕ) :
    (found.point start range).insertPoint.or next = found.insertPoint.or
        (if start ≤ range.lfStart then some range.lfId else next) := by
  unfold Found.point
  cases hpoint : found.insertPoint with
  | none =>
    by_cases hstart : start ≤ range.lfStart
    · simp [hstart]
    · simp [hstart, hpoint]
  | some id => simp [hpoint]

theorem point_rest (found : Found) (start : ℤ) (range : LockfRange) :
    (found.point start range).firstMatch = found.firstMatch ∧
      (found.point start range).lastMatch = found.lastMatch ∧
      (found.point start range).conflict = found.conflict := by
  unfold Found.point
  split_ifs <;> exact ⟨rfl, rfl, rfl⟩

variable {range : LockfRange} {req : Request} {found : Found} {list : List LockfRange}

theorem met_cons_skip
    (rest : List LockfRange) (h : range.lfOwner = req.owner → req.meets range = false) :
    req.met (range :: rest) = req.met rest := by
  unfold met
  by_cases howner : range.lfOwner = req.owner
  · rw [ownRanges_cons_own howner, filter_cons_of_neg]
    simp [h howner]
  · rw [ownRanges_cons_other howner]

theorem met_cons_own
    (rest : List LockfRange) (howner : range.lfOwner = req.owner) (h : req.meets range = true) :
    req.met (range :: rest) = range :: req.met rest := by
  unfold met
  rw [ownRanges_cons_own howner, filter_cons_of_pos h]

def pointOf (start : ℤ) (list : List LockfRange) : Option ℕ :=
  (list.find? fun range => start ≤ range.lfStart).map LockfRange.lfId

theorem pointOf_cons (start : ℤ) (range : LockfRange) (rest : List LockfRange) :
    pointOf start (range :: rest) = if start ≤ range.lfStart then some range.lfId
      else pointOf start rest := by
  unfold pointOf
  by_cases hstart : start ≤ range.lfStart
  · simp [hstart]
  · simp [hstart]

/-- What the loop reports when it sees no conflict. -/
structure Found.Of (req : Request) (list : List LockfRange)
    (found found' : Found) : Prop where
  point : found'.insertPoint = found.insertPoint.or (pointOf req.start list)
  first : found'.firstMatch = found.firstMatch.or ((req.met list).head?.map LockfRange.lfId)
  last : found'.lastMatch = ((req.met list).getLast?.map LockfRange.lfId).or found.lastMatch
  free : ∀ range ∈ list, ¬req.Conflict range

theorem Found.Of.skip (h : Found.Of req rest (found.point req.start range) found')
    (hmeets : range.lfOwner = req.owner → req.meets range = false) (hfree : ¬req.Conflict range) :
    Found.Of req (range :: rest) found found' := by
  obtain ⟨hfirst, hlast, -⟩ := point_rest found req.start range
  constructor
  · rw [h.point, point_insertPoint, pointOf_cons]
  · rw [h.first, met_cons_skip rest hmeets, hfirst]
  · rw [h.last, met_cons_skip rest hmeets, hlast]
  · intro a ha
    rcases mem_cons.mp ha with rfl | ha
    · exact hfree
    · exact h.free a ha

theorem Found.Of.own (h : Found.Of req rest ((found.point req.start range).own range) found')
    (howner : range.lfOwner = req.owner) (hmeets : req.meets range = true) :
    Found.Of req (range :: rest) found found' := by
  obtain ⟨hfirst, hlast, -⟩ := point_rest found req.start range
  constructor
  · rw [h.point, pointOf_cons, ← point_insertPoint]
    rfl
  · rw [h.first, met_cons_own rest howner hmeets]
    simp only [Found.own, hfirst]
    cases found.firstMatch <;> simp
  · rw [h.last, met_cons_own rest howner hmeets, getLast?_cons]
    simp only [Found.own]
    cases (req.met rest).getLast? <;> simp
  · intro a ha
    rcases mem_cons.mp ha with rfl | ha
    · exact fun hconflict => hconflict.owner howner
    · exact h.free a ha

theorem met_eq_nil_of_behind (h : ∀ a ∈ list, req.stop < a.lfStart) : req.met list = [] := by
  unfold met
  rw [filter_eq_nil_iff]
  intro a ha
  have hlt := h a (mem_ownRanges.mp ha).1
  simp only [meets, decide_eq_true_eq]
  omega

theorem findRanges_cons
    (req : Request) (range : LockfRange) (rest : List LockfRange) (found : Found) :
    findRanges req (range :: rest) found = if range.lfEnd < req.start then
        findRanges req rest (found.point req.start range)
      else if range.lfStart > req.stop then found.point req.start range
      else if range.lfOwner = req.owner then
        findRanges req rest ((found.point req.start range).own range)
      else if req.type ≠ .unlck ∧ (req.type = .wrlck ∨ range.lfType = .wrlck) then
        { found.point req.start range with conflict := some range }
      else findRanges req rest (found.point req.start range) :=
  rfl

theorem findRanges_free
    (hreq : req.start ≤ req.stop) (hsorted : list.Pairwise fun a b => a.lfStart ≤ b.lfStart)
    (h : (findRanges req list found).conflict = none) :
    Found.Of req list found (findRanges req list found) := by
  induction list generalizing found with
  | nil =>
    constructor
    · simp [findRanges, pointOf]
    · simp [findRanges, met, ownRanges]
    · simp [findRanges, met, ownRanges]
    · intro a ha
      cases ha
  | cons range rest ih =>
    rw [pairwise_cons] at hsorted
    rw [findRanges_cons] at h ⊢
    split_ifs at h ⊢ with hend hstart howner hlock
    · have hmeets : req.meets range = false := by
        simp [meets]
        omega
      apply (ih hsorted.2 h).skip (fun _ => hmeets)
      intro hconflict
      have htrue := hconflict.meets
      rw [hmeets] at htrue
      cases htrue
    · obtain ⟨hfirst, hlast, -⟩ := point_rest found req.start range
      -- the list is sorted, so nothing behind this range is met
      have hbehind : ∀ a ∈ range :: rest, req.stop < a.lfStart := by
        intro a ha
        rcases mem_cons.mp ha with rfl | ha
        · exact hstart
        · have hle := hsorted.1 a ha
          omega
      constructor
      · have hpoint := point_insertPoint found req.start range none
        rw [Option.or_none, if_pos (by omega)] at hpoint
        rw [hpoint, pointOf_cons, if_pos (by omega)]
      · rw [met_eq_nil_of_behind hbehind, hfirst]
        simp
      · rw [met_eq_nil_of_behind hbehind, hlast]
        simp
      · intro a ha hconflict
        have hlt := hbehind a ha
        have hmeets := hconflict.meets
        simp only [meets, decide_eq_true_eq] at hmeets
        omega
    · apply (ih hsorted.2 h).own howner
      simp only [meets, decide_eq_true_eq]
      omega
    · apply (ih hsorted.2 h).skip
      · exact fun h => absurd h howner
      · intro hconflict
        exact hlock ⟨hconflict.locks, hconflict.exclusive⟩

theorem findRanges_conflict
    (hfound : found.conflict = none) (h : (findRanges req list found).conflict = some range) :
    range ∈ list ∧ req.Conflict range := by
  induction list generalizing found with
  | nil =>
    rw [findRanges, hfound] at h
    cases h
  | cons a rest ih =>
    obtain ⟨-, -, hconflict⟩ := point_rest found req.start a
    rw [hfound] at hconflict
    rw [findRanges_cons] at h
    split_ifs at h with hend hstart howner hlock
    · obtain ⟨hmem, hrange⟩ := ih hconflict h
      exact ⟨by simp [hmem], hrange⟩
    · rw [hconflict] at h
      cases h
    · have hown : ((found.point req.start a).own a).conflict = none := hconflict
      obtain ⟨hmem, hrange⟩ := ih hown h
      exact ⟨by simp [hmem], hrange⟩
    · simp only [Option.some.injEq] at h
      subst h
      refine ⟨by simp, howner, ?_, hlock.1, hlock.2⟩
      simp only [meets, decide_eq_true_eq]
      omega
    · obtain ⟨hmem, hrange⟩ := ih hconflict h
      exact ⟨by simp [hmem], hrange⟩

/-! ## Where the new range goes -/

theorem lfInsert_pointOf (htidy : Tidy bound list) (elm : LockfRange) :
    lfInsert list elm (pointOf elm.lfStart list) = insertFrom elm list := by
  apply lfInsert_eq
  unfold pointOf
  cases hfind : list.find? fun range => elm.lfStart ≤ range.lfStart with
  | none =>
    intro a ha
    have hnone := find?_eq_none.mp hfind a ha
    simpa using hnone
  | some range =>
    obtain ⟨-, xs, ys, rfl, hxs⟩ := find?_eq_some_iff_append.mp hfind
    refine ⟨xs, range, ys, rfl, rfl, htidy.id_ne.1, ?_⟩
    intro a ha
    have hnot := hxs a ha
    simpa using hnot

/-! ## The owner's ranges around the request -/

theorem own_split (req : Request) (hordered : Ordered (intervals own)) :
    ∃ pre post, own = pre ++ own.filter req.meets ++ post ∧
      (∀ a ∈ pre, a.lfEnd < req.start) ∧ ∀ a ∈ post, req.stop < a.lfStart := by
  induction own with
  | nil => exact ⟨[], [], rfl, by simp, by simp⟩
  | cons range rest ih =>
    have hapart := hordered.apart
    have hproper : ∀ a ∈ range :: rest, a.lfStart ≤ a.lfEnd :=
      fun a ha => hordered.proper a.interval (mem_map_of_mem ha)
    have htail : Ordered (intervals rest) := by
      constructor
      · exact (pairwise_cons.mp hapart).2
      · exact fun a ha => hordered.proper a (mem_cons_of_mem _ ha)
    have hnext : ∀ a ∈ rest, range.lfEnd < a.lfStart :=
      fun a ha => (pairwise_cons.mp hapart).1 a.interval
        (mem_map_of_mem ha)
    have hrange := hproper range (by simp)
    by_cases hbefore : range.lfEnd < req.start
    · obtain ⟨pre, post, hrest, hpre, hpost⟩ := ih htail
      have hmeets : ¬req.meets range = true := by
        simp only [meets, decide_eq_true_eq]
        omega
      refine ⟨range :: pre, post, ?_, ?_, hpost⟩
      · rw [filter_cons_of_neg hmeets, cons_append, cons_append, ← hrest]
      · intro a ha
        rcases mem_cons.mp ha with rfl | ha
        · exact hbefore
        · exact hpre a ha
    · by_cases hstart : range.lfStart ≤ req.stop
      · obtain ⟨pre, post, hrest, hpre, hpost⟩ := ih htail
        have hnil : pre = [] := by
          rw [eq_nil_iff_forall_not_mem]
          intro a ha
          have hmem : a ∈ rest := by
            rw [hrest]
            simp [ha]
          have hlow := hpre a ha
          have hhigh := hnext a hmem
          have hle := hproper a (by simp [hmem])
          omega
        subst hnil
        have hmeets : req.meets range = true := by
          simp only [meets, decide_eq_true_eq]
          omega
        refine ⟨[], post, ?_, by simp, hpost⟩
        rw [nil_append] at hrest ⊢
        rw [filter_cons_of_pos hmeets, cons_append, ← hrest]
      · have hbehind : ∀ a ∈ range :: rest, req.stop < a.lfStart := by
          intro a ha
          rcases mem_cons.mp ha with rfl | ha
          · omega
          · have hlt := hnext a ha
            omega
        refine ⟨[], range :: rest, ?_, by simp, hbehind⟩
        have hnone : (range :: rest).filter req.meets = [] := by
          rw [filter_eq_nil_iff]
          intro a ha
          have hlt := hbehind a ha
          simp only [meets, decide_eq_true_eq]
          omega
        rw [hnone]
        rfl

end DragonFly.AdvLock
