import DragonFly.LockfSetlock

/-!
# Byte-range locks over whole runs

A run is any sequence of passes of any owners, with sleepers interrupted in
between.  In every state it reaches the owners' maps are consistent, and a pass
that returns success changes the map of its owner on the requested bytes only.
-/

namespace DragonFly.AdvLock

open Function List PosixCounts
open IntervalMap

def Holds (lock : Lockf) (owner : ℕ) (x : ℤ) (type : LockType) : Prop :=
  ∃ range ∈ lock.lfRange, range.lfOwner = owner ∧ range.lfStart ≤ x ∧
    x ≤ range.lfEnd ∧ range.lfType = type

def lockMap (lock : Lockf) (owner : ℕ) (x : ℤ) : Option LockType :=
  (lookup (intervals (ownRanges owner lock.lfRange)) x).map Prod.fst

def userRanges (crUid : ℕ → ℕ) (uid : ℕ) (list : List LockfRange) : List LockfRange :=
  list.filter fun range => range.lfOwner ≠ 0 ∧ crUid range.lfOwner = uid

/-- Every owner has disjoint ranges, of bytes a file can have. -/
structure Sound (lock : Lockf) : Prop where
  tidy : Tidy lock.nextId lock.lfRange
  locks : ∀ range ∈ lock.lfRange, range.lfType ≠ .unlck ∧ 0 ≤ range.lfStart ∧ range.lfEnd ≤ llongMax
  ordered : ∀ owner, Ordered (intervals (ownRanges owner lock.lfRange))

structure WellFormed (crUid : ℕ → ℕ) (st : LockState) : Prop extends Sound st.lock where
  shared : ∀ owner owner' x type type', owner ≠ owner' →
    Holds st.lock owner x type → Holds st.lock owner' x type' → type = .rdlck ∧ type' = .rdlck
  process : ∀ owner, owner ≠ 0 → posixTotal (ownRanges owner st.lock.lfRange) ≤
      st.counts.pNumposixlocks owner
  user : ∀ uid, posixTotal (userRanges crUid uid st.lock.lfRange) ≤ st.counts.uiPosixlocks uid

/-- A request for bytes a file can have. -/
structure Request.Valid (req : Request) : Prop where
  nonneg : 0 ≤ req.start
  bytes : req.start ≤ req.stop
  bounded : req.stop ≤ llongMax

/-- The states of a lock structure, with requests of some kind. -/
inductive Reached (allowed : Request → Prop) (crUid : ℕ → ℕ) :
    LockState → Prop
  | init (counts : PosixCounts) (hprocess : ∀ owner,
      0 ≤ counts.pNumposixlocks owner)
      (huser : ∀ uid, 0 ≤ counts.uiPosixlocks uid) :
      Reached allowed crUid ⟨⟨[], [], 0⟩, counts⟩
  | setlock (env : LockEnv) (req : Request) (out : Outcome) (h : Reached allowed crUid st)
      (henv : env.crUid = crUid) (hreq : req.Valid) (hallowed : allowed req)
      (hstep : lfSetlock env st req = some (st', out)) :
      Reached allowed crUid st'
  | interrupt (id : ℕ) (h : Reached allowed crUid st) :
      Reached allowed crUid (interrupt st id)

/-! ## Maps -/

variable {x : ℤ} {owner : ℕ} {lock : Lockf} {crUid : ℕ → ℕ}

theorem at_intervals_own :
    At (intervals (ownRanges owner lock.lfRange)) x v ↔
      ∃ range ∈ lock.lfRange, range.lfOwner = owner ∧ range.lfStart ≤ x ∧
        x ≤ range.lfEnd ∧ (range.lfType, range.lfPosix) = v := by
  unfold At intervals
  constructor
  · rintro ⟨a, ha, hle, hge, hv⟩
    obtain ⟨range, hrange, rfl⟩ := mem_map.mp ha
    obtain ⟨hmem, howner⟩ := mem_ownRanges.mp hrange
    exact ⟨range, hmem, howner, hle, hge, hv⟩
  · rintro ⟨range, hmem, howner, hle, hge, hv⟩
    have hrange : range ∈ ownRanges owner lock.lfRange := mem_ownRanges.mpr ⟨hmem, howner⟩
    exact ⟨range.interval, mem_map_of_mem hrange, hle, hge, hv⟩

theorem holds_iff_at :
    Holds lock owner x type ↔ ∃ posix, At (intervals (ownRanges owner lock.lfRange)) x
        (type, posix) := by
  simp only [at_intervals_own, Prod.mk.injEq]
  constructor
  · rintro ⟨range, hmem, howner, hle, hge, htype⟩
    exact ⟨range.lfPosix, range, hmem, howner, hle, hge, htype, rfl⟩
  · rintro ⟨posix, range, hmem, howner, hle, hge, htype, -⟩
    exact ⟨range, hmem, howner, hle, hge, htype⟩

theorem lockMap_eq_some (h : Ordered (intervals (ownRanges owner lock.lfRange))) :
    lockMap lock owner x = some type ↔ Holds lock owner x type := by
  unfold lockMap
  rw [Option.map_eq_some_iff, holds_iff_at]
  constructor
  · rintro ⟨⟨type', posix⟩, hlookup, rfl⟩
    exact ⟨posix, (lookup_eq_some h).mp hlookup⟩
  · rintro ⟨posix, hat⟩
    exact ⟨(type, posix), (lookup_eq_some h).mpr hat, rfl⟩

variable {req : Request}

theorem at_written :
    At req.written x v ↔ req.type ≠ .unlck ∧ req.start ≤ x ∧
      x ≤ req.stop ∧ v = (req.type, req.flags.posix) := by
  unfold Request.written
  split_ifs with htype
  · simp [not_at_nil, htype]
  · rw [at_cons]
    simp [not_at_nil, htype, eq_comm]

theorem written_ordered (h : req.start ≤ req.stop) :
    Ordered req.written ∧ ∀ a ∈ req.written, req.start ≤ a.start ∧ a.stop ≤ req.stop := by
  unfold Request.written
  split_ifs
  · exact ⟨⟨.nil, by simp⟩, by simp⟩
  · refine ⟨⟨pairwise_singleton _ _, ?_⟩, ?_⟩
    · intro a ha
      rw [mem_singleton.mp ha]
      exact h
    · intro a ha
      rw [mem_singleton.mp ha]
      exact ⟨le_rfl, le_rfl⟩

section Applied

variable {env : LockEnv} {st st' : LockState} {req : Request}

variable {owner : ℕ} {crUid : ℕ → ℕ}

section

variable (h : Applied env st st' req)
include h

theorem Applied.ownRanges_other (howner : owner ≠ req.owner) :
    ownRanges owner st'.lock.lfRange = ownRanges owner st.lock.lfRange :=
  ownRanges_of_otherRanges howner h.others

theorem Applied.holds_other (howner : owner ≠ req.owner) (x : ℤ) (type : LockType) :
    Holds st'.lock owner x type ↔ Holds st.lock owner x type := by
  rw [holds_iff_at, holds_iff_at, h.ownRanges_other howner]

theorem Applied.ordered_own (hreq : req.start ≤ req.stop)
    (hordered : Ordered (intervals (ownRanges req.owner st.lock.lfRange))) :
    Ordered (intervals (ownRanges req.owner st'.lock.lfRange)) ∧
      ∀ x v, At (intervals (ownRanges req.owner st'.lock.lfRange)) x v ↔
        At req.written x v ∨ ((x < req.start ∨ req.stop < x) ∧
          At (intervals (ownRanges req.owner st.lock.lfRange)) x v) := by
  obtain ⟨hwritten, hin⟩ := written_ordered hreq
  obtain ⟨hnew, hat⟩ := h.fused.at_iff (hordered.splice hwritten hreq hin)
  refine ⟨hnew, ?_⟩
  intro x v
  rw [hat, at_splice]

theorem Applied.holds_own (hreq : req.start ≤ req.stop)
    (hordered : Ordered (intervals (ownRanges req.owner st.lock.lfRange)))
    (x : ℤ) (type : LockType) :
    Holds st'.lock req.owner x type ↔
      (req.type ≠ .unlck ∧ req.start ≤ x ∧ x ≤ req.stop ∧ type = req.type) ∨
        ((x < req.start ∨ req.stop < x) ∧ Holds st.lock req.owner x type) := by
  have hat := (h.ordered_own hreq hordered).2
  rw [holds_iff_at, holds_iff_at]
  simp only [hat, at_written, Prod.mk.injEq]
  constructor
  · rintro ⟨posix, ⟨hlock, hle, hge, htype, -⟩ | ⟨hout, hold⟩⟩
    · exact Or.inl ⟨hlock, hle, hge, htype⟩
    · exact Or.inr ⟨hout, posix, hold⟩
  · rintro (⟨hlock, hle, hge, htype⟩ | ⟨hout, posix, hold⟩)
    · exact ⟨req.flags.posix, Or.inl ⟨hlock, hle, hge, htype, rfl⟩⟩
    · exact ⟨posix, Or.inr ⟨hout, hold⟩⟩

theorem Applied.locks
    (hreq : req.Valid) (hordered : Ordered (intervals (ownRanges req.owner st.lock.lfRange)))
    (hlocks : ∀ range ∈ st.lock.lfRange,
      range.lfType ≠ .unlck ∧ 0 ≤ range.lfStart ∧ range.lfEnd ≤ llongMax) :
    ∀ range ∈ st'.lock.lfRange, range.lfType ≠ .unlck ∧ 0 ≤ range.lfStart ∧
        range.lfEnd ≤ llongMax := by
  intro range hrange
  by_cases howner : range.lfOwner = req.owner
  · have hproper : range.lfStart ≤ range.lfEnd := by
      have hmem : range ∈ ownRanges req.owner st'.lock.lfRange := mem_ownRanges.mpr ⟨hrange, howner⟩
      exact (h.ordered_own hreq.bytes hordered).1.proper range.interval (mem_map_of_mem hmem)
    -- the first and the last byte of the range
    have hfirst : Holds st'.lock req.owner range.lfStart range.lfType :=
      ⟨range, hrange, howner, le_rfl, hproper, rfl⟩
    have hlast : Holds st'.lock req.owner range.lfEnd range.lfType :=
      ⟨range, hrange, howner, hproper, le_rfl, rfl⟩
    rw [h.holds_own hreq.bytes hordered] at hfirst hlast
    have hnonneg := hreq.nonneg
    have hbounded := hreq.bounded
    refine ⟨?_, ?_, ?_⟩
    · rcases hfirst with ⟨hlock, -, -, htype⟩ | ⟨-, old, hold, -, -, -, htype⟩
      · rw [htype]
        exact hlock
      · rw [← htype]
        exact (hlocks old hold).1
    · rcases hfirst with ⟨-, hle, -, -⟩ | ⟨-, old, hold, -, hle, -, -⟩
      · omega
      · have hzero := (hlocks old hold).2.1
        omega
    · rcases hlast with ⟨-, -, hge, -⟩ | ⟨-, old, hold, -, -, hge, -⟩
      · omega
      · have hmax := (hlocks old hold).2.2
        omega
  · apply hlocks
    have hmem : range ∈ ownRanges range.lfOwner st'.lock.lfRange := mem_ownRanges.mpr ⟨hrange, rfl⟩
    rw [h.ownRanges_other howner] at hmem
    exact (mem_ownRanges.mp hmem).1

theorem Applied.shared_own (hwell : WellFormed crUid st) (hreq : req.start ≤ req.stop)
    (hfree : ∀ range ∈ st.lock.lfRange, ¬req.Conflict range) (howner : owner ≠ req.owner)
    (hown : Holds st'.lock req.owner x type) (hother : Holds st'.lock owner x type') :
    type = .rdlck ∧ type' = .rdlck := by
  rw [h.holds_other howner] at hother
  rw [h.holds_own hreq (hwell.ordered req.owner)] at hown
  rcases hown with ⟨hlock, hle, hge, rfl⟩ | ⟨-, hold⟩
  · obtain ⟨range, hrange, hrangeOwner, hstart, hend, rfl⟩ := hother
    have hmeets : req.meets range = true := by
      simp only [Request.meets, decide_eq_true_eq]
      omega
    have hexclusive : ¬(req.type = .wrlck ∨ range.lfType = .wrlck) :=
      fun hex => hfree range hrange
        ⟨hrangeOwner ▸ howner, hmeets, hlock, hex⟩
    have hrangeType := (hwell.locks range hrange).1
    constructor
    · cases htype : req.type with
      | rdlck => rfl
      | unlck => exact absurd htype hlock
      | wrlck => exact absurd (Or.inl htype) hexclusive
    · cases htype : range.lfType with
      | rdlck => rfl
      | unlck => exact absurd htype hrangeType
      | wrlck => exact absurd (Or.inr htype) hexclusive
  · exact hwell.shared req.owner owner x type type' howner.symm hold hother

end

theorem posixTotal_filter (owner : ℕ) (p : LockfRange → Bool) (list : List LockfRange) :
    posixTotal (list.filter p) = posixTotal ((ownRanges owner list).filter p) +
        posixTotal ((otherRanges owner list).filter p) := by
  induction list with
  | nil => rfl
  | cons range rest ih =>
    by_cases howner : range.lfOwner = owner
    · rw [ownRanges_cons_own howner, otherRanges_cons_own howner]
      by_cases hp : p range = true
      · rw [filter_cons_of_pos hp, filter_cons_of_pos hp,
          posixTotal_cons, posixTotal_cons, ih, add_assoc]
      · rw [filter_cons_of_neg hp, filter_cons_of_neg hp, ih]
    · rw [ownRanges_cons_other howner, otherRanges_cons_other howner]
      by_cases hp : p range = true
      · rw [filter_cons_of_pos hp, filter_cons_of_pos hp, posixTotal_cons, posixTotal_cons, ih]
        ring
      · rw [filter_cons_of_neg hp, filter_cons_of_neg hp, ih]

theorem filter_user_own (crUid : ℕ → ℕ) (uid owner : ℕ) (list : List LockfRange) :
    (ownRanges owner list).filter (fun range => range.lfOwner ≠ 0 ∧ crUid range.lfOwner = uid) =
      if owner ≠ 0 ∧ crUid owner = uid then ownRanges owner list else [] := by
  split_ifs with huser
  · rw [filter_eq_self]
    intro range hrange
    rw [(mem_ownRanges.mp hrange).2, decide_eq_true_eq]
    exact huser
  · rw [filter_eq_nil_iff]
    intro range hrange
    rw [(mem_ownRanges.mp hrange).2, decide_eq_true_eq]
    exact huser

section

variable (h : Applied env st st' req)
include h

theorem Applied.process
    (hwell : WellFormed crUid st) (howner : owner ≠ 0) :
    posixTotal (ownRanges owner st'.lock.lfRange) ≤ st'.counts.pNumposixlocks owner := by
  have hold := hwell.process owner howner
  rw [h.counts]
  by_cases hown : owner = req.owner
  · subst hown
    unfold change add
    rw [if_neg howner]
    simp only [update_self]
    linarith
  · rw [h.ownRanges_other hown]
    unfold change add
    split_ifs
    · exact hold
    · simp only [update_of_ne hown]
      exact hold

theorem Applied.user
    (hwell : WellFormed crUid st) (henv : env.crUid = crUid) (uid : ℕ) :
    posixTotal (userRanges crUid uid st'.lock.lfRange) ≤ st'.counts.uiPosixlocks uid := by
  have hold := hwell.user uid
  unfold userRanges at hold ⊢
  rw [posixTotal_filter req.owner, filter_user_own] at hold ⊢
  rw [h.others, h.counts]
  unfold change add
  by_cases hzero : req.owner = 0
  · rw [if_pos hzero]
    rw [if_neg (fun hboth => hboth.1 hzero)] at hold ⊢
    exact hold
  · rw [if_neg hzero, henv]
    by_cases huid : crUid req.owner = uid
    · subst huid
      rw [if_pos ⟨hzero, rfl⟩] at hold ⊢
      simp only [update_self]
      linarith
    · rw [if_neg (fun hboth => huid hboth.2)] at hold ⊢
      simp only [update_of_ne (Ne.symm huid)]
      exact hold

theorem Applied.sound (hsound : Sound st.lock) (hreq : req.Valid) :
    Sound st'.lock := by
  have hordered := hsound.ordered req.owner
  constructor
  · exact h.tidy
  · exact h.locks hreq hordered hsound.locks
  · intro owner
    by_cases hown : owner = req.owner
    · rw [hown]
      exact (h.ordered_own hreq.bytes hordered).1
    · rw [h.ownRanges_other hown]
      exact hsound.ordered owner

theorem Applied.wellFormed
    (hwell : WellFormed crUid st) (henv : env.crUid = crUid)
    (hreq : req.Valid) (hfree : ∀ range ∈ st.lock.lfRange, ¬req.Conflict range) :
    WellFormed crUid st' := by
  refine ⟨h.sound hwell.toSound hreq, ?_, ?_, ?_⟩
  · intro owner owner' x type type' hne hholds hholds'
    by_cases hown : owner = req.owner
    · subst hown
      exact h.shared_own hwell hreq.bytes hfree hne.symm hholds hholds'
    · by_cases hown' : owner' = req.owner
      · subst hown'
        have hboth := h.shared_own hwell hreq.bytes hfree hne hholds' hholds
        exact ⟨hboth.2, hboth.1⟩
      · rw [h.holds_other hown] at hholds
        rw [h.holds_other hown'] at hholds'
        exact hwell.shared owner owner' x type type' hne hholds hholds'
  · exact fun owner howner => h.process hwell howner
  · exact h.user hwell henv

end

end Applied

/-! ## Runs -/

variable {st : LockState}

theorem WellFormed.sleepOn
    (h : WellFormed crUid st) (req : Request) : WellFormed crUid (sleepOn st req) := by
  refine ⟨⟨⟨h.tidy.sorted, h.tidy.distinct, ?_⟩, h.locks, h.ordered⟩, h.shared, h.process, h.user⟩
  exact fun a ha => (h.tidy.bounded a ha).trans (Nat.lt_succ_self _)

variable {env : LockEnv} {st' : LockState}

theorem WellFormed.pass (hwell : WellFormed crUid st) (henv : env.crUid = crUid) (hreq : req.Valid)
    (h : Pass env st req st' out) : WellFormed crUid st' := by
  cases h with
  | applied hfree happlied =>
    exact happlied.wellFormed hwell henv hreq hfree
  | failed error => exact hwell
  | blocked hrange hconflict hidle => exact hwell.sleepOn req
  | released hrange hconflict hflock htype happlied =>
    apply WellFormed.sleepOn
    apply happlied.wellFormed hwell henv ⟨hreq.nonneg, hreq.bytes, hreq.bounded⟩
    exact fun range _ hunlock => hunlock.locks rfl

theorem Reached.wellFormed (h : Reached allowed crUid st) : WellFormed crUid st := by
  induction h with
  | init counts hprocess huser =>
    refine ⟨⟨⟨.nil, .nil, by simp⟩, by simp, ?_⟩, ?_, ?_, ?_⟩
    · exact fun owner => ⟨.nil, by simp [intervals, ownRanges]⟩
    · rintro owner owner' x type type' - ⟨range, hrange, -⟩
      cases hrange
    · exact fun owner _ => hprocess owner
    · exact huser
  | setlock env req out h henv hreq hallowed hstep ih =>
    exact ih.pass henv hreq (lfSetlock_pass hreq.bytes ih.tidy (ih.ordered req.owner) hstep)
  | interrupt id h ih =>
    exact ⟨⟨ih.tidy, ih.locks, ih.ordered⟩, ih.shared, ih.process, ih.user⟩

/-! ## Giving everything up -/

theorem posixTotal_nonneg (list : List LockfRange) : 0 ≤ posixTotal list := by
  induction list with
  | nil => exact le_rfl
  | cons range rest ih =>
    have hcount : 0 ≤ posixCount range := by
      unfold posixCount
      split_ifs
      · exact zero_le_one
      · exact le_rfl
    rw [posixTotal_cons]
    exact add_nonneg hcount ih

theorem WellFormed.own_le_user (h : WellFormed crUid st) (howner : owner ≠ 0) :
    posixTotal (ownRanges owner st.lock.lfRange) ≤ st.counts.uiPosixlocks (crUid owner) := by
  have huser := h.user (crUid owner)
  unfold userRanges at huser
  rw [posixTotal_filter owner, filter_user_own, if_pos ⟨howner, rfl⟩] at huser
  have hrest := posixTotal_nonneg ((otherRanges owner st.lock.lfRange).filter
    fun range => range.lfOwner ≠ 0 ∧ crUid range.lfOwner = crUid owner)
  linarith

/-- The limit of the owner's user does not allow `diff` more ranges. -/
def Refused (env : LockEnv) (counts : PosixCounts) (owner : ℕ) (diff : ℤ) : Prop :=
  owner ≠ 0 ∧ diff > 0 ∧ env.crUid owner ≠ 0 ∧
    min (env.rlimPosixlocks owner) env.maxposixlocksperuid ≠ -1 ∧
    counts.uiPosixlocks (env.crUid owner) ≥ min (env.rlimPosixlocks owner) env.maxposixlocksperuid

theorem lfCountChange_of_refused (h : Refused env counts owner diff) :
    lfCountChange env counts owner diff = some (true, counts) := by
  unfold lfCountChange
  rw [if_neg h.1, if_pos h.2]

theorem lfCountChange_of_free (h : ¬Refused env counts owner diff)
    (hprocess : owner ≠ 0 → 0 ≤ counts.pNumposixlocks owner + diff)
    (huser : owner ≠ 0 → 0 ≤ counts.uiPosixlocks (env.crUid owner) + diff) :
    lfCountChange env counts owner diff = some (false, counts.change env owner diff) := by
  unfold lfCountChange change
  by_cases howner : owner = 0
  · rw [if_pos howner, if_pos howner]
  · have hassert : (counts.add (env.crUid owner) owner diff).uiPosixlocks (env.crUid owner) ≥ 0 ∧
        (counts.add (env.crUid owner) owner diff).pNumposixlocks owner ≥
          0 := by
      simp only [add, update_self]
      exact ⟨huser howner, hprocess howner⟩
    rw [if_neg howner, if_neg howner, if_neg (fun hall => h ⟨howner, hall⟩), if_pos hassert]

theorem Overwritten.own_eq_nil (hwell : WellFormed crUid st) (htype : req.type = .unlck)
    (hstart : req.start = 0) (hstop : req.stop = llongMax)
    (h : Overwritten req st.lock.nextId st.lock.lfRange first last clip) :
    ownRanges req.owner (mergeAdjacent req (clip.before ++ clip.after) clip.brange).1 = [] := by
  have hbytes : req.start ≤ req.stop := by
    rw [hstart, hstop]
    decide
  have hmerged := mergeAdjacent_spec h.tidy h.primary
  obtain ⟨hwritten, hin⟩ := written_ordered hbytes
  obtain ⟨hordered, hat⟩ := (h.fused.trans hmerged.fused).at_iff
    ((hwell.ordered req.owner).splice hwritten hbytes hin)
  rw [eq_nil_iff_forall_not_mem]
  intro range hrange
  have hinterval := mem_map_of_mem (f := LockfRange.interval) hrange
  have hbyte := (hat range.lfStart range.interval.value).mp ⟨range.interval, hinterval, le_rfl,
      hordered.proper range.interval hinterval, rfl⟩
  rw [at_splice, at_written, at_intervals_own] at hbyte
  rcases hbyte with ⟨hlock, -⟩ | ⟨hout, old, hold, -, hle, hge, -⟩
  · exact hlock htype
  · have hbounds := (hwell.locks old hold).2
    omega

theorem initialCount_override (htype : req.type = .unlck) (hfirst : req.start ≤ first.lfStart)
    (hlast : last.lfEnd ≤ req.stop) : initialCount req first last = 0 := by
  unfold initialCount
  rw [if_neg]
  rintro ⟨-, hoverride, -⟩
  exact hoverride ⟨not_lt.mpr hfirst, htype, hlast⟩

def unlockAll (owner : ℕ) (flags : LockFlags) : Request :=
  ⟨owner, .unlck, flags, 0, llongMax⟩

/-- The counters are not below the number of the owner's ranges. -/
def Charged (env : LockEnv) (st : LockState) (owner : ℕ) : Prop :=
  owner ≠ 0 → posixTotal (ownRanges owner st.lock.lfRange) ≤ st.counts.pNumposixlocks owner ∧
    posixTotal (ownRanges owner st.lock.lfRange) ≤ st.counts.uiPosixlocks (env.crUid owner)

/-- Where the ranges charged in advance cover the change, the assertions hold. -/
theorem setOverlapping_cases (hcharged : Charged env st req.owner) (hreq : req.start ≤ req.stop)
    (htidy : Tidy st.lock.nextId st.lock.lfRange)
    (hordered : Ordered (intervals (ownRanges req.owner st.lock.lfRange)))
    (hfirst : (req.met st.lock.lfRange).head? = some first)
    (hlast : (req.met st.lock.lfRange).getLast? = some last)
    (hgrow : ∀ clip, Overwritten req st.lock.nextId st.lock.lfRange first last clip →
      posixTotal (ownRanges req.owner
        (mergeAdjacent req (clip.before ++ clip.after) clip.brange).1) +
          initialCount req first last ≤ posixTotal (ownRanges req.owner st.lock.lfRange)) :
    (Refused env st.counts req.owner (-initialCount req first last) ∧
      setOverlapping env st req (pointOf req.start st.lock.lfRange) first last =
        some (st, .failed .enolck)) ∨
    (¬Refused env st.counts req.owner (-initialCount req first last) ∧
      ∃ st', setOverlapping env st req (pointOf req.start st.lock.lfRange) first last =
          some (st', .ok) ∧
        posixTotal (ownRanges req.owner st'.lock.lfRange) + initialCount req first last ≤
          posixTotal (ownRanges req.owner st.lock.lfRange)) := by
  obtain ⟨clip, hclip, hover⟩ := clipLoop_overwritten hreq htidy hordered hfirst hlast rfl
  have hmerged := mergeAdjacent_spec hover.tidy hover.primary
  have hgrow := hgrow clip hover
  have hcount := hover.count
  have htotal := hmerged.total
  have hnonneg := posixTotal_nonneg (ownRanges req.owner
    (mergeAdjacent req (clip.before ++ clip.after) clip.brange).1)
  by_cases hrefused : Refused env st.counts req.owner (-initialCount req first last)
  · left
    have hne : initialCount req first last ≠ 0 := by
      have hpos := hrefused.2.1
      omega
    refine ⟨hrefused, ?_⟩
    simp only [setOverlapping, if_pos hne, lfCountChange_of_refused hrefused]
  · right
    refine ⟨hrefused, ?_⟩
    have hchange : (if initialCount req first last ≠ 0 then
        lfCountChange env st.counts req.owner (-initialCount req first last)
      else some (false, st.counts)) =
        some (false, st.counts.change env req.owner (-initialCount req first last)) := by
      split_ifs with hzero
      · apply lfCountChange_of_free hrefused
        · intro howner
          have hprocess := (hcharged howner).1
          omega
        · intro howner
          have huser := (hcharged howner).2
          omega
      · rw [not_not.mp hzero, neg_zero, change_zero]
    have hwake : ∀ w st, (doWakeup req w st).lock.lfRange = st.lock.lfRange := by
      intro w st
      unfold doWakeup
      split_ifs <;> rfl
    simp only [setOverlapping, hchange, hclip]
    rw [if_neg (by omega)]
    split_ifs with hneg
    · rw [lfCountChange_of_free (fun hmore => absurd hmore.2.1 (by omega))]
      · refine ⟨_, rfl, ?_⟩
        rw [hwake]
        exact hgrow
      · intro howner
        have hprocess := (hcharged howner).1
        simp only [change, if_neg howner, add, update_self]
        omega
      · intro howner
        have huser := (hcharged howner).2
        simp only [change, if_neg howner, add, update_self]
        omega
    · refine ⟨_, rfl, ?_⟩
      rw [hwake]
      exact hgrow

theorem setOverlapping_unlockAll (hwell : WellFormed crUid st) (henv : env.crUid = crUid)
    (hfirst : ((unlockAll owner flags).met st.lock.lfRange).head? = some first)
    (hlast : ((unlockAll owner flags).met st.lock.lfRange).getLast? = some last) :
    ∃ st', setOverlapping env st (unlockAll owner flags)
      (pointOf (unlockAll owner flags).start st.lock.lfRange) first last = some (st', .ok) := by
  have hmem : ∀ a ∈ (unlockAll owner flags).met st.lock.lfRange, a ∈ st.lock.lfRange :=
    fun a ha => (mem_ownRanges.mp (mem_filter.mp ha).1).1
  have hzero : initialCount (unlockAll owner flags) first last = 0 := by
    apply initialCount_override rfl
    · exact (hwell.locks first (hmem first (mem_of_head? hfirst))).2.1
    · exact (hwell.locks last (hmem last (mem_of_getLast? hlast))).2.2
  have hcharged : Charged env st owner := by
    intro howner
    rw [henv]
    exact ⟨hwell.process owner howner, hwell.own_le_user howner⟩
  rcases setOverlapping_cases hcharged (by simp only [unlockAll]; decide) hwell.tidy
    (hwell.ordered owner) hfirst hlast (fun clip hover => by
      rw [hover.own_eq_nil hwell rfl rfl rfl, hzero]
      exact posixTotal_nonneg _) with ⟨hrefused, -⟩ | ⟨-, hdone⟩
  · have hpos := hrefused.2.1
    rw [hzero] at hpos
    cases hpos
  · exact ⟨_, hdone.choose_spec.1⟩

theorem lfSetlock_unlockAll
    (owner : ℕ) (flags : LockFlags) (hwell : WellFormed crUid st) (henv : env.crUid = crUid) :
    ∃ st', lfSetlock env st (unlockAll owner flags) = some (st', .ok) := by
  have hconflict := findRanges_unlock (rfl : (unlockAll owner flags).type = .unlck) st.lock.lfRange
  have hbytes : (unlockAll owner flags).start ≤ (unlockAll owner flags).stop := by
    simp only [unlockAll]
    decide
  have hlock : lfSetlock env st (unlockAll owner flags) =
      applyRequest env st (unlockAll owner flags)
        (findRanges (unlockAll owner flags) st.lock.lfRange .empty) := by
    unfold lfSetlock
    simp only [hconflict]
  rw [hlock]
  rcases applyRequest_eq hbytes hwell.tidy hconflict with
    ⟨first, last, hfirst, hlast, heq⟩ | ⟨-, heq⟩
  · rw [heq]
    exact setOverlapping_unlockAll hwell henv hfirst hlast
  · rw [heq]
    exact ⟨st, if_pos rfl⟩

/-! ## The semantics of byte-range locks -/

theorem Applied.lockMap_own (h : Applied env st st' req) (hreq : req.start ≤ req.stop)
    (hordered : Ordered (intervals (ownRanges req.owner st.lock.lfRange))) (x : ℤ) :
    lockMap st'.lock req.owner x = if req.start ≤ x ∧ x ≤ req.stop then
        if req.type = .unlck then none else some req.type
      else lockMap st.lock req.owner x := by
  have hnew := (h.ordered_own hreq hordered).1
  have hholds := h.holds_own hreq hordered x
  apply Option.ext
  intro type
  rw [lockMap_eq_some hnew, hholds]
  split_ifs with hin htype
  · constructor
    · rintro (⟨hlock, -⟩ | ⟨hout, -⟩)
      · exact absurd htype hlock
      · omega
    · intro hnone
      cases hnone
  · constructor
    · rintro (⟨-, -, -, rfl⟩ | ⟨hout, -⟩)
      · rfl
      · omega
    · intro hsome
      rw [Option.some.injEq] at hsome
      exact Or.inl ⟨htype, hin.1, hin.2, hsome.symm⟩
  · rw [lockMap_eq_some hordered]
    constructor
    · rintro (⟨-, hle, hge, -⟩ | ⟨-, hold⟩)
      · exact absurd ⟨hle, hge⟩ hin
      · exact hold
    · intro hold
      exact Or.inr ⟨by omega, hold⟩

theorem Applied.lockMap_other (h : Applied env st st' req) (howner : owner ≠ req.owner)
    (x : ℤ) : lockMap st'.lock owner x = lockMap st.lock owner x := by
  unfold lockMap
  rw [h.ownRanges_other howner]

/-- The list is sorted, an owner's ranges are disjoint, and ranges of different
owners overlap only where both are shared. -/
structure Consistent (list : List LockfRange) : Prop where
  sorted : list.Pairwise fun a b => a.lfStart ≤ b.lfStart
  proper : ∀ a ∈ list, a.lfStart ≤ a.lfEnd
  disjoint : ∀ owner, (ownRanges owner list).Pairwise fun a b =>
    a.lfEnd < b.lfStart
  shared : ∀ a ∈ list, ∀ b ∈ list, a.lfOwner ≠ b.lfOwner → lfOverlap a b.lfStart b.lfEnd = true →
      a.lfType = .rdlck ∧ b.lfType = .rdlck

theorem WellFormed.proper
    (h : WellFormed crUid st) {range : LockfRange} (hrange : range ∈ st.lock.lfRange) :
    range.lfStart ≤ range.lfEnd := by
  have hmem : range ∈ ownRanges range.lfOwner st.lock.lfRange := mem_ownRanges.mpr ⟨hrange, rfl⟩
  exact (h.ordered range.lfOwner).proper range.interval (mem_map_of_mem hmem)

theorem WellFormed.consistent (h : WellFormed crUid st) : Consistent st.lock.lfRange := by
  constructor
  · exact h.tidy.sorted
  · exact fun a ha => h.proper ha
  · intro owner
    have hapart := (h.ordered owner).apart
    rw [intervals, pairwise_map] at hapart
    exact hapart
  · intro a ha b hb howner hoverlap
    have hproper := h.proper ha
    have hproper' := h.proper hb
    simp only [lfOverlap, decide_eq_true_eq] at hoverlap
    -- the two ranges meet at the larger of their starts
    exact h.shared a.lfOwner b.lfOwner (max a.lfStart b.lfStart) a.lfType b.lfType howner
      ⟨a, ha, rfl, le_max_left _ _, by omega, rfl⟩
      ⟨b, hb, rfl, le_max_right _ _, by omega, rfl⟩

theorem Reached.byte_range_locks
    {allowed : Request → Prop} {crUid : ℕ → ℕ} {st : LockState} (h : Reached allowed crUid st) :
    Consistent st.lock.lfRange ∧ (∀ env req st', req.Valid →
        lfSetlock env st req = some (st', .ok) → (∀ x, lockMap st'.lock req.owner x =
            if req.start ≤ x ∧ x ≤ req.stop then
              if req.type = .unlck then none else some req.type
            else lockMap st.lock req.owner x) ∧
          ∀ owner, owner ≠ req.owner → ∀ x, lockMap st'.lock owner x = lockMap st.lock owner x) ∧
      (∀ env req st' error, req.Valid →
        lfSetlock env st req = some (st', .failed error) → st' = st) ∧
      (∀ env req st', req.Valid → lfSetlock env st req = some (st', .asleep) →
          (req.flags.posix = true → st'.lock.lfRange = st.lock.lfRange ∧ st'.counts = st.counts) ∧
          (∀ x, x < req.start ∨ req.stop < x →
            lockMap st'.lock req.owner x = lockMap st.lock req.owner x) ∧
          ∀ owner, owner ≠ req.owner → ∀ x, lockMap st'.lock owner x = lockMap st.lock owner x) ∧
      ∀ env owner flags, env.crUid = crUid →
        ∃ st', lfSetlock env st ⟨owner, .unlck, flags, 0, llongMax⟩ = some (st', .ok) := by
  have hwell := h.wellFormed
  have hpass : ∀ {env req st' out}, req.Valid →
      lfSetlock env st req = some (st', out) → Pass env st req st' out :=
    fun hreq hstep => lfSetlock_pass hreq.bytes hwell.tidy
      (hwell.ordered _) hstep
  refine ⟨hwell.consistent, ?_, ?_, ?_, ?_⟩
  · intro env req st' hreq hstep
    cases hpass hreq hstep with
    | applied hfree happlied =>
      exact ⟨happlied.lockMap_own hreq.bytes (hwell.ordered req.owner),
        fun owner howner => happlied.lockMap_other howner⟩
  · intro env req st' error hreq hstep
    cases hpass hreq hstep with
    | failed => rfl
  · intro env req st' hreq hstep
    cases hpass hreq hstep with
    | blocked hrange hconflict hidle =>
      exact ⟨fun _ => ⟨rfl, rfl⟩, fun _ _ => rfl, fun _ _ _ => rfl⟩
    | released hrange hconflict hflock htype happlied =>
      refine ⟨?_, ?_, fun owner howner => happlied.lockMap_other howner⟩
      · intro hposix
        rw [hposix] at hflock
        cases hflock
      · intro x hout
        have hmap := happlied.lockMap_own hreq.bytes (hwell.ordered req.owner) x
        have hnot : ¬(req.start ≤ x ∧ x ≤ req.stop) := by omega
        exact hmap.trans (if_neg hnot)
  · intro env owner flags henv
    exact lfSetlock_unlockAll owner flags hwell henv

/-- An owner locks ten bytes and gives three in the middle up. -/
theorem Reached.middle_unlocked : ∃ st st' : LockState, Reached (fun _ => True) (fun _ => 7) st ∧
      lfSetlock ⟨fun _ => 7, fun _ => 4, 8⟩ st
        ⟨1, .unlck, ⟨false, true, false⟩, 3, 5⟩ = some (st', .ok) ∧
      lockMap st'.lock 1 4 = none ∧ lockMap st'.lock 1 9 = some .wrlck := by
  have hstart : Reached (fun _ => True) (fun _ => 7) _ :=
    .setlock ⟨fun _ => 7, fun _ => 4, 8⟩
      ⟨1, .wrlck, ⟨true, true, false⟩, 0, 9⟩ .ok
      (.init ⟨fun _ => 0, fun _ => 0⟩ (by simp) (by simp)) rfl
      ⟨by decide, by decide, by decide⟩ trivial rfl
  refine ⟨_, _, hstart, rfl, ?_⟩
  have hmaps := hstart.byte_range_locks.2.1 ⟨fun _ => 7, fun _ => 4, 8⟩
    ⟨1, .unlck, ⟨false, true, false⟩, 3, 5⟩ _
    ⟨by decide, by decide, by decide⟩ rfl
  constructor
  · rw [hmaps.1 4]
    rfl
  · rw [hmaps.1 9]
    rfl

theorem Reached.counters_cover (h : Reached allowed crUid st) :
    (∀ owner ≠ 0, posixTotal (ownRanges owner st.lock.lfRange) ≤ st.counts.pNumposixlocks owner) ∧
      ∀ uid, posixTotal (userRanges crUid uid st.lock.lfRange) ≤ st.counts.uiPosixlocks uid :=
  ⟨h.wellFormed.process, h.wellFormed.user⟩

theorem Reached.lock_counted :
    ∃ st, Reached (fun _ => True) (fun _ => 7) st ∧ 1 ≤ st.counts.uiPosixlocks 7 := by
  have h : Reached (fun _ => True) (fun _ => 7) _ :=
    .setlock ⟨fun _ => 7, fun _ => 4, 8⟩ ⟨1, .wrlck, ⟨true, true, false⟩, 0, 9⟩ .ok
      (.init ⟨fun _ => 0, fun _ => 0⟩ (by simp) (by simp)) rfl
      ⟨by decide, by decide, by decide⟩ trivial rfl
  exact ⟨_, h, h.counters_cover.2 7⟩

end DragonFly.AdvLock
