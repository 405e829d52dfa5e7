import DragonFly.LockfList

/-!
# The clip loop

The loop runs over the ranges of all owners, but only those of the request's
owner change.  The results below say what becomes of the owner's own part of the
list: ranges inside the request go, the last one may be clipped or become part of
the primary range, and so may the first one.
-/

namespace DragonFly.AdvLock

open List

/-- A range whose replacement by the request may let a waiter in. -/
def Request.wakes (req : Request) (range : LockfRange) : Bool :=
  (req.type = .unlck) || (req.type = .rdlck ∧ range.lfType = .wrlck)

abbrev ClipState.leave (st : ClipState) (req : Request) (range : LockfRange)
    (rest : List LockfRange) : ClipState :=
  { st with after := rest, wakeupNeeded := st.wakeupNeeded || req.wakes range }

abbrev ClipState.remove (st : ClipState) (req : Request) (range : LockfRange)
    (rest : List LockfRange) : ClipState :=
  { st.leave req range rest with count := st.count - posixCount range }

structure ClipFrame (req : Request) (bound : ℕ) (st st' : ClipState) :
    Prop where
  tidy : Tidy bound (st'.before ++ st'.after)
  others : otherRanges req.owner (st'.before ++ st'.after) =
    otherRanges req.owner (st.before ++ st.after)
  count : st'.count - posixTotal (ownRanges req.owner (st'.before ++ st'.after)) =
    st.count - posixTotal (ownRanges req.owner (st.before ++ st.after))

variable {st : ClipState} {bound first fuel : ℕ} {req : Request}
  {rest post inside : List LockfRange} {range last : LockfRange}

theorem ClipFrame.trans (h : ClipFrame req bound st st') (h' : ClipFrame req bound st' st'') :
    ClipFrame req bound st st'' :=
  ⟨h'.tidy, h'.others.trans h.others, h'.count.trans h.count⟩

/-- What becomes of the last range that overlaps the request.  The owner's ranges
before it are `kept`, those after it `post`; the list and the primary range
afterwards come last. -/
inductive RightClip (req : Request) (kept : List LockfRange)
    (last : LockfRange) (post : List LockfRange) :
    Option LockfRange → List LockfRange → Option LockfRange → Prop
  | gone (hend : last.lfEnd ≤ req.stop) :
      RightClip req kept last post brange (kept ++ post) brange
  | merged (hend : req.stop < last.lfEnd) (hstart : last.lfStart ≤ req.stop + 1)
      (hmatch : lfMatch last req.type req.flags = true) (hkept : kept = init ++ [b]) :
      RightClip req kept last post (some b) (init ++ b.extend last :: post) (some (b.extend last))
  | clipped (hend : req.stop < last.lfEnd)
      (hmatch : brange.isSome = true → last.lfStart ≤ req.stop + 1 →
        lfMatch last req.type req.flags = false) :
      RightClip req kept last post brange
        (kept ++ { last with lfStart := max last.lfStart (req.stop + 1) } :: post)
        brange

/-! ## Single passes -/

section

variable (hafter : st.after = range :: rest)
include hafter

theorem clipLoop_skip {last : ℕ}
    (hskip : range.lfOwner ≠ req.owner ∨ st.brange.map LockfRange.lfId = some range.lfId) :
    clipLoop req first last (fuel + 1) st = clipLoop req first last fuel
        { st with before := st.before ++ [range], after := rest } := by
  rw [clipLoop]
  simp only [hafter]
  rw [if_pos hskip]

section

variable (howner : range.lfOwner = req.owner)
include howner

variable (hother : st.brange.map LockfRange.lfId ≠ some range.lfId)
include hother

theorem clipLoop_inside
    {last : ℕ} (hstart : req.start ≤ range.lfStart) (hend : range.lfEnd ≤ req.stop) :
    clipLoop req first last (fuel + 1) st = if range.lfId = last then
        some (st.remove req range rest)
      else
        clipLoop req first last fuel (st.remove req range rest) := by
  rw [clipLoop]
  simp only [hafter]
  rw [if_neg (not_or.mpr ⟨not_not.mpr howner, hother⟩), if_neg (by omega),
    if_neg (by omega), Bool.or_assoc]
  rfl

theorem clipLoop_right
    {last : ℕ} (hstart : req.start ≤ range.lfStart) (hend : req.stop < range.lfEnd)
    (hlast : range.lfId = last) :
    clipLoop req first last (fuel + 1) st =
      some (clipRight req range (st.leave req range rest)) := by
  rw [clipLoop]
  simp only [hafter]
  rw [if_neg (not_or.mpr ⟨not_not.mpr howner, hother⟩), if_neg (by omega), if_pos hend,
    if_neg (not_not.mpr hlast), Bool.or_assoc]
  rfl

theorem clipLoop_left
    {last : ℕ} (hstart : range.lfStart < req.start) (hfirst : range.lfId = first) :
    clipLoop req first last (fuel + 1) st = if range.lfId = last then
        some (clipLeft req range (st.leave req range rest))
      else
        clipLoop req first last fuel (clipLeft req range (st.leave req range rest)) := by
  rw [clipLoop]
  simp only [hafter]
  rw [if_neg (not_or.mpr ⟨not_not.mpr howner, hother⟩), if_pos hstart,
    if_neg (not_not.mpr hfirst), Bool.or_assoc]
  rfl

end

end

/-! ## The last range -/

theorem posixCount_extend (range other : LockfRange) :
    posixCount (range.extend other) = posixCount range :=
  rfl

theorem ownRanges_insertFrom_behind (htidy : Tidy bound (before ++ range :: rest))
    (howner : range.lfOwner = req.owner) (hend : req.stop < range.lfEnd)
    (hpost : ∀ a ∈ ownRanges req.owner rest, range.lfEnd < a.lfStart) :
    ownRanges req.owner (insertFrom { range with lfStart := req.stop + 1 } rest) =
      { range with lfStart := req.stop + 1 } :: ownRanges req.owner rest ∧
    otherRanges req.owner (insertFrom { range with lfStart := req.stop + 1 } rest) =
      otherRanges req.owner rest := by
  have hsorted : rest.Pairwise fun a b => a.lfStart ≤ b.lfStart := by
    have hpairs := htidy.sorted
    rw [pairwise_append, pairwise_cons] at hpairs
    exact hpairs.2.1.2
  obtain ⟨xs, ys, hrest, hinsert, hxs, -⟩ :=
    insertFrom_split { range with lfStart := req.stop + 1 } hsorted
  have hnone : ownRanges req.owner xs = [] := by
    rw [eq_nil_iff_forall_not_mem]
    intro a ha
    have hmem : a ∈ ownRanges req.owner rest := by
      rw [hrest, ownRanges_append]
      exact mem_append_left _ ha
    have hlow := hxs a (mem_ownRanges.mp ha).1
    have hhigh := hpost a hmem
    simp only at hlow
    omega
  rw [hinsert, hrest]
  constructor
  · simp [hnone, howner]
  · simp [howner]

theorem Tidy.moveBehind (h : Tidy bound (before ++ range :: rest))
    (hstart : range.lfStart ≤ req.stop) :
    Tidy bound (before ++ AdvLock.insertFrom
        { range with lfStart := req.stop + 1 } rest) := by
  have hlow : ∀ a ∈ before, a.lfStart < req.stop + 1 := by
    intro a ha
    have hle := h.start_le.1 a ha
    omega
  rw [← insertFrom_append hlow rest]
  apply Tidy.insertFrom (h.sublist (by simp))
  · intro a ha
    rcases mem_append.mp ha with ha | ha
    · exact h.id_ne.1 a ha
    · exact h.id_ne.2 a ha
  · exact h.bounded range (by simp)

/-- The last range has been clipped, or is part of the primary one now. -/
def RightClipped (req : Request) (bound : ℕ) (range : LockfRange) (st st' : ClipState) : Prop :=
  ClipFrame req bound { st with after := range :: st.after } st' ∧
    RightClip req (ownRanges req.owner st.before) range (ownRanges req.owner st.after) st.brange
      (ownRanges req.owner (st'.before ++ st'.after)) st'.brange ∧
    st'.wakeupNeeded = st.wakeupNeeded

theorem clipRight_spec (st : ClipState) (htidy : Tidy bound (st.before ++ range :: st.after))
    (howner : range.lfOwner = req.owner) (hend : req.stop < range.lfEnd)
    (hbrange : ∀ b, st.brange = some b → ∃ init, ownRanges req.owner st.before = init ++ [b])
    (hpost : ∀ a ∈ ownRanges req.owner st.after, range.lfEnd < a.lfStart) :
    RightClipped req bound range st (clipRight req range st) := by
  have hclipped : (st.brange.isSome = true → range.lfStart ≤ req.stop + 1 →
        lfMatch range req.type req.flags = false) →
      clipRight req range st =
        (if range.lfStart ≤ req.stop then
          { st with
            after := insertFrom
              { range with lfStart := req.stop + 1 } st.after }
        else { st with after := range :: st.after }) →
      RightClipped req bound range st (clipRight req range st) := by
    intro hmatch heq
    have hresult : RightClip req (ownRanges req.owner st.before) range
        (ownRanges req.owner st.after) st.brange _ st.brange :=
      .clipped hend hmatch
    rw [heq]
    split_ifs with hstart
    · obtain ⟨hown, hothers⟩ := ownRanges_insertFrom_behind htidy howner hend hpost
      have hmax : max range.lfStart (req.stop + 1) = req.stop + 1 := by omega
      rw [hmax] at hresult
      refine ⟨⟨htidy.moveBehind hstart, ?_, ?_⟩, ?_, rfl⟩
      · simp only
        rw [otherRanges_append, otherRanges_append, hothers, otherRanges_cons_own howner]
      · simp only
        rw [ownRanges_append, ownRanges_append, hown,
          ownRanges_cons_own howner, posixTotal_append, posixTotal_append,
          posixTotal_cons, posixTotal_cons]
        rfl
      · simp only
        rw [ownRanges_append, hown]
        exact hresult
    · have hmax : max range.lfStart (req.stop + 1) = range.lfStart := by omega
      rw [hmax] at hresult
      refine ⟨⟨htidy, rfl, rfl⟩, ?_, rfl⟩
      rw [ownRanges_append, ownRanges_cons_own howner]
      exact hresult
  cases hb : st.brange with
  | none =>
    rw [hb] at hclipped
    apply hclipped
    · intro hsome
      cases hsome
    · unfold clipRight
      rw [hb]
  | some b =>
    by_cases hmerge : range.lfStart ≤ req.stop + 1 ∧ lfMatch range req.type req.flags = true
    · have heq : clipRight req range st = { st with
            before := tailqModify b.lfId
              (fun b : LockfRange => b.extend range) st.before
            after := tailqModify b.lfId
              (fun b : LockfRange => b.extend range) st.after
            brange := some (b.extend range)
            count := st.count - posixCount range } := by
        unfold clipRight
        simp only [hb]
        rw [if_pos hmerge]
      obtain ⟨init, hinit⟩ := hbrange b hb
      have hmem : b ∈ st.before := by
        have hown : b ∈ ownRanges req.owner st.before := by
          rw [hinit]
          simp
        exact (mem_ownRanges.mp hown).1
      have hsame : ∀ a ∈ st.before ++ range :: st.after, a.lfId = b.lfId → a = b := by
        intro a ha hid
        exact htidy.eq_of_id ha (by simp [hmem]) hid
      have hbown : b.lfOwner = req.owner := by
        have hown : b ∈ ownRanges req.owner st.before := by
          rw [hinit]
          simp
        exact (mem_ownRanges.mp hown).2
      have hafter : ∀ a ∈ st.after, a.lfId ≠ b.lfId := by
        intro a ha hid
        have hpairs := htidy.distinct
        rw [pairwise_append] at hpairs
        exact hpairs.2.2 b hmem a (by simp [ha]) hid.symm
      have hinitid : ∀ a ∈ init, a.lfId ≠ b.lfId := by
        have hsub : List.Sublist (init ++ [b]) (st.before ++ range :: st.after) := by
          rw [← hinit]
          exact filter_sublist.trans (sublist_append_left _ _)
        exact (htidy.sublist hsub).id_ne.1
      have hownBefore : ownRanges req.owner (tailqModify b.lfId
          (fun b : LockfRange => b.extend range) st.before) =
            init ++ [b.extend range] := by
        rw [ownRanges_tailqModify (f := fun b => b.extend range)
          (fun _ => rfl), hinit]
        exact tailqModify_middle _ hinitid rfl (by simp)
      rw [heq]
      simp only [RightClipped]
      rw [tailqModify_eq_self _ hafter]
      refine ⟨⟨?_, ?_, ?_⟩, ?_, trivial⟩
      · have hsub := htidy.sublist (List.Sublist.append_left (sublist_cons_self range st.after)
            st.before)
        apply hsub.congr
        rw [map_append, map_append, map_key_tailqModify (f := fun b => b.extend range)
            (fun _ => rfl)]
      · simp only
        rw [otherRanges_append, otherRanges_append,
          otherRanges_tailqModify (f := fun b => b.extend range)
            (fun _ => rfl), otherRanges_cons_own howner]
        intro a ha hid
        rw [hsame a (by simp [ha]) hid]
        exact hbown
      · simp [hownBefore, hinit, howner, posixCount_extend]
        ring
      · rw [hb, ownRanges_append, hownBefore, append_assoc, singleton_append]
        exact .merged hend hmerge.1 hmerge.2 hinit
    · rw [hb] at hclipped
      apply hclipped
      · intro _ hstart
        by_contra hne
        exact hmerge ⟨hstart, by simpa using hne⟩
      · unfold clipRight
        simp only [hb]
        rw [if_neg hmerge]

/-! ## The loop behind the start of the request -/

/-- The cursor stands before the owner's ranges `ahead`, the primary range if the
cursor has not passed it, then the ranges `inside`, then `last`, which is the last
one to look at, then `post`. -/
structure ClipCursor (req : Request) (bound : ℕ) (st : ClipState)
    (ahead inside : List LockfRange) (last : LockfRange)
    (post : List LockfRange) : Prop where
  tidy : Tidy bound (st.before ++ st.after)
  own : ownRanges req.owner st.after = ahead ++ inside ++ last :: post
  single : ahead.length ≤ 1
  primary : ∀ b ∈ ahead, st.brange = some b
  brange : ∀ b, st.brange = some b → ∃ init, ownRanges req.owner st.before ++ ahead = init ++ [b]
  inside : ∀ m ∈ inside, req.start ≤ m.lfStart ∧ m.lfEnd ≤ req.stop
  lastStart : req.start ≤ last.lfStart
  post : ∀ a ∈ post, last.lfEnd < a.lfStart

theorem ClipCursor.not_primary
    (h : ClipCursor req bound st [] inside last post) (hafter : st.after = range :: rest) :
    st.brange.map LockfRange.lfId ≠ some range.lfId := by
  intro hid
  cases hb : st.brange with
  | none => simp [hb] at hid
  | some b =>
    rw [hb, Option.map_some, Option.some.injEq] at hid
    obtain ⟨init, hinit⟩ := h.brange b hb
    have hmem : b ∈ ownRanges req.owner st.before := by
      rw [append_nil] at hinit
      rw [hinit]
      simp
    have hpairs := h.tidy.distinct
    rw [pairwise_append, hafter] at hpairs
    exact hpairs.2.2 b (mem_ownRanges.mp hmem).1 range (by simp) hid

theorem ClipCursor.skip_other (h : ClipCursor req bound st ahead inside last post)
    (hafter : st.after = range :: rest) (howner : range.lfOwner ≠ req.owner) :
    ClipCursor req bound
      { st with before := st.before ++ [range], after := rest }
      ahead inside last post := by
  have hbefore : ownRanges req.owner (st.before ++ [range]) = ownRanges req.owner st.before := by
    rw [ownRanges_append, ownRanges_cons_other howner]
    exact append_nil _
  constructor
  · simp only
    rw [append_assoc, singleton_append, ← hafter]
    exact h.tidy
  · have hown := h.own
    rw [hafter, ownRanges_cons_other howner] at hown
    exact hown
  · exact h.single
  · exact h.primary
  · intro b hb
    rw [hbefore]
    exact h.brange b hb
  · exact h.inside
  · exact h.lastStart
  · exact h.post

theorem ClipCursor.skip_primary (h : ClipCursor req bound st [b] inside last post)
    (hafter : st.after = b :: rest) (howner : b.lfOwner = req.owner) :
    ClipCursor req bound
      { st with before := st.before ++ [b], after := rest }
      [] inside last post := by
  constructor
  · simp only
    rw [append_assoc, singleton_append, ← hafter]
    exact h.tidy
  · have hown := h.own
    rw [hafter, ownRanges_cons_own howner] at hown
    exact tail_eq_of_cons_eq hown
  · exact Nat.zero_le _
  · intro b hb
    cases hb
  · intro b' hb
    have hprimary := h.primary b (by simp)
    simp only at hb
    rw [hprimary, Option.some.injEq] at hb
    subst hb
    rw [ownRanges_append, ownRanges_cons_own howner]
    exact ⟨ownRanges req.owner st.before, append_nil _⟩
  · exact h.inside
  · exact h.lastStart
  · exact h.post

theorem clipFrame_remove
    (htidy : Tidy bound (st.before ++ st.after)) (hafter : st.after = range :: rest)
    (howner : range.lfOwner = req.owner) : ClipFrame req bound st (st.remove req range rest) := by
  constructor
  · rw [hafter] at htidy
    exact htidy.sublist (by simp)
  · simp [hafter, howner]
  · simp [hafter, howner]
    ring

theorem ClipCursor.remove
    (h : ClipCursor req bound st [] (range :: inside) last post) (hafter : st.after = range :: rest)
    (howner : range.lfOwner = req.owner) :
    ClipCursor req bound (st.remove req range rest) [] inside last post := by
  constructor
  · exact (clipFrame_remove h.tidy hafter howner).tidy
  · have hown := h.own
    rw [hafter, ownRanges_cons_own howner] at hown
    exact tail_eq_of_cons_eq hown
  · exact Nat.zero_le _
  · intro b hb
    cases hb
  · exact h.brange
  · exact fun m hm => h.inside m (by simp [hm])
  · exact h.lastStart
  · exact h.post

theorem clipLoop_last
    (h : ClipCursor req bound st [] [] last post) (hafter : st.after = last :: rest)
    (howner : last.lfOwner = req.owner) :
    ∃ st', clipLoop req first last.lfId (fuel + 1) st = some st' ∧ ClipFrame req bound st st' ∧
      RightClip req (ownRanges req.owner st.before) last post
        st.brange (ownRanges req.owner (st'.before ++ st'.after)) st'.brange ∧
      st'.wakeupNeeded = (st.wakeupNeeded || req.wakes last) := by
  have hother := h.not_primary hafter
  have hown := h.own
  rw [hafter, ownRanges_cons_own howner] at hown
  have hrest : ownRanges req.owner rest = post := tail_eq_of_cons_eq hown
  by_cases hend : last.lfEnd ≤ req.stop
  · refine ⟨_, ?_, clipFrame_remove h.tidy hafter howner, ?_, rfl⟩
    · rw [clipLoop_inside hafter howner hother h.lastStart hend, if_pos rfl]
    · simp only
      rw [ownRanges_append, hrest]
      exact .gone hend
  · have htidy := h.tidy
    rw [hafter] at htidy
    obtain ⟨hframe, hclip, hwake⟩ := clipRight_spec (st.leave req last rest)
      htidy howner (not_le.mp hend)
      (by
        intro b hb
        obtain ⟨init, hinit⟩ := h.brange b hb
        rw [append_nil] at hinit
        exact ⟨init, hinit⟩)
      (by
        rw [hrest]
        exact h.post)
    refine ⟨_, clipLoop_right hafter howner hother h.lastStart (not_le.mp hend) rfl, ?_, ?_, hwake⟩
    · constructor
      · exact hframe.tidy
      · rw [hframe.others, hafter]
      · rw [hframe.count, hafter]
    · simp only at hclip
      rw [hrest] at hclip
      exact hclip

theorem clipLoop_enclosed (first : ℕ) (hfuel : st.after.length ≤ fuel)
    (h : ClipCursor req bound st ahead inside last post) :
    ∃ st', clipLoop req first last.lfId fuel st = some st' ∧ ClipFrame req bound st st' ∧
      RightClip req (ownRanges req.owner st.before ++ ahead) last post
        st.brange (ownRanges req.owner (st'.before ++ st'.after)) st'.brange ∧ st'.wakeupNeeded =
        (st.wakeupNeeded || (inside ++ [last]).any req.wakes) := by
  induction fuel generalizing st ahead inside with
  | zero =>
    have hnil : st.after = [] := length_eq_zero_iff.mp (by omega)
    have hown := h.own
    rw [hnil] at hown
    simp [ownRanges] at hown
  | succ fuel ih =>
    cases hafter : st.after with
    | nil =>
      have hown := h.own
      rw [hafter] at hown
      simp [ownRanges] at hown
    | cons range rest =>
      have hlength : rest.length ≤ fuel := by
        rw [hafter, length_cons] at hfuel
        omega
      have hjoin : st.before ++ [range] ++ rest = st.before ++ st.after := by
        simp [hafter]
      by_cases howner : range.lfOwner = req.owner
      · have hown := h.own
        rw [hafter, ownRanges_cons_own howner] at hown
        cases ahead with
        | cons b ahead =>
          have hempty : ahead = [] := by
            have hsingle := h.single
            rw [length_cons] at hsingle
            exact length_eq_zero_iff.mp (by omega)
          subst hempty
          have hrange : range = b := head_eq_of_cons_eq hown
          subst hrange
          obtain ⟨st', hsome, hframe, hclip, hwake⟩ := ih hlength (h.skip_primary hafter howner)
          refine ⟨st', ?_, ?_, ?_, hwake⟩
          · have hprimary := h.primary range (by simp)
            rw [clipLoop_skip hafter (Or.inr (by rw [hprimary]; rfl))]
            exact hsome
          · exact ⟨hframe.tidy, by rw [hframe.others, hjoin],
              by rw [hframe.count, hjoin]⟩
          · simp only at hclip
            rw [ownRanges_append, ownRanges_cons_own howner, append_nil] at hclip
            exact hclip
        | nil =>
          rw [append_nil]
          cases inside with
          | cons m inside =>
            have hrange : range = m := head_eq_of_cons_eq hown
            subst hrange
            have hbounds := h.inside range (by simp)
            have hmem : last ∈ ownRanges req.owner rest := by
              rw [tail_eq_of_cons_eq hown]
              simp
            have hne : range.lfId ≠ last.lfId := by
              have htidy := h.tidy
              rw [hafter] at htidy
              exact (htidy.id_ne.2 last (mem_ownRanges.mp hmem).1).symm
            obtain ⟨st', hsome, hframe, hclip, hwake⟩ := ih hlength (h.remove hafter howner)
            refine ⟨st', ?_, (clipFrame_remove h.tidy hafter howner).trans hframe, ?_, ?_⟩
            · rw [clipLoop_inside hafter howner (h.not_primary hafter) hbounds.1 hbounds.2,
                if_neg hne]
              exact hsome
            · rw [append_nil] at hclip
              exact hclip
            · rw [hwake, cons_append, any_cons, Bool.or_assoc]
          | nil =>
            have hrange : range = last := head_eq_of_cons_eq hown
            subst hrange
            obtain ⟨st', hsome, hframe, hclip, hwake⟩ := clipLoop_last h hafter howner
            refine ⟨st', hsome, hframe, hclip, ?_⟩
            rw [hwake]
            simp
      · obtain ⟨st', hsome, hframe, hclip, hwake⟩ := ih hlength (h.skip_other hafter howner)
        refine ⟨st', ?_, ?_, ?_, hwake⟩
        · rw [clipLoop_skip hafter (Or.inl howner)]
          exact hsome
        · exact ⟨hframe.tidy, by rw [hframe.others, hjoin],
            by rw [hframe.count, hjoin]⟩
        · have hbefore : ownRanges req.owner (st.before ++ [range]) =
              ownRanges req.owner st.before := by
            rw [ownRanges_append, ownRanges_cons_other howner]
            exact append_nil _
          simp only at hclip
          rw [hbefore] at hclip
          exact hclip

/-! ## The first range -/

/-- What becomes of a range that starts before the request.  The owner's ranges
before it are `pre`, and `primary` is the primary range, if there is one; the
ranges that take their place come last. -/
inductive LeftClip (req : Request) (pre : List LockfRange)
    (range : LockfRange) (primary : List LockfRange) :
    List LockfRange → Option LockfRange → Prop
  | merged (hprimary : primary = [b]) (hmatch : lfMatch range req.type req.flags = true) :
      LeftClip req pre range primary (pre ++ [range.extend b]) (some (range.extend b))
  | clipped (noend : Bool)
      (hmatch : primary ≠ [] → lfMatch range req.type req.flags = false)
      (hnoend : noend = true → range.lfNoend = true ∧ (primary = [] ∨ range.lfEnd < req.start)) :
      LeftClip req pre range primary
        (pre ++ { range with
          lfEnd := req.start - 1
          lfNoend := noend } :: primary)
        primary.head?

/-- The first range has been clipped, or is part of the primary one now; `ahead` is
the primary range, if it still follows. -/
def LeftClipped (req : Request) (bound : ℕ) (range : LockfRange) (primary rest : List LockfRange)
    (st st' : ClipState) : Prop :=
  ClipFrame req bound { st with after := range :: st.after } st' ∧
    ∃ ahead, ownRanges req.owner st'.after = ahead ++ rest ∧ ahead.length ≤ 1 ∧
      (∀ b ∈ ahead, st'.brange = some b) ∧
      LeftClip req (ownRanges req.owner st.before) range primary
        (ownRanges req.owner st'.before ++ ahead) st'.brange ∧
      st'.wakeupNeeded = st.wakeupNeeded

theorem clipLeft_clipped (noend : Bool) (htidy : Tidy bound (st.before ++ range :: st.after))
    (howner : range.lfOwner = req.owner) (hown : ownRanges req.owner st.after = primary ++ rest)
    (hbrange : st.brange = primary.head?) (hsingle : primary.length ≤ 1)
    (hmatch : primary ≠ [] → lfMatch range req.type req.flags = false)
    (hnoend : noend = true → range.lfNoend = true ∧ (primary = [] ∨ range.lfEnd < req.start))
    (heq : clipLeft req range st =
      { st with
        before := st.before ++ [{ range with
          lfEnd := req.start - 1
          lfNoend := noend }] }) :
    LeftClipped req bound range primary rest st (clipLeft req range st) := by
  have hbefore : ownRanges req.owner (st.before ++ [{ range with
        lfEnd := req.start - 1
        lfNoend := noend }]) =
      ownRanges req.owner st.before ++ [{ range with
        lfEnd := req.start - 1
        lfNoend := noend }] := by
    simp [howner]
    rfl
  rw [heq]
  constructor
  · constructor
    · apply htidy.congr
      simp [LockfRange.key]
    · simp [howner]
    · simp only
      rw [ownRanges_append, hbefore, ownRanges_append,
        ownRanges_cons_own howner, posixTotal_append, posixTotal_append,
        posixTotal_append, posixTotal_cons, posixTotal_cons, posixTotal_nil]
      have hsame : posixCount { range with
          lfEnd := req.start - 1
          lfNoend := noend } = posixCount range := rfl
      rw [hsame]
      ring
  · refine ⟨primary, hown, hsingle, ?_, ?_, rfl⟩
    · intro b hb
      rw [hbrange]
      cases primary with
      | nil => cases hb
      | cons c primary =>
        have hempty : primary = [] := by
          rw [length_cons] at hsingle
          exact length_eq_zero_iff.mp (by omega)
        subst hempty
        rw [mem_singleton] at hb
        rw [hb]
        rfl
    · simp only
      rw [hbefore, hbrange, append_assoc, singleton_append]
      exact .clipped noend hmatch hnoend

theorem clipLeft_merged (htidy : Tidy bound (st.before ++ range :: st.after))
    (howner : range.lfOwner = req.owner) (hown : ownRanges req.owner st.after = b :: rest)
    (hmatch : lfMatch range req.type req.flags = true) (heq : clipLeft req range st =
      { st with
        before := tailqRemove b.lfId st.before ++ [range.extend b]
        after := tailqRemove b.lfId st.after
        brange := some (range.extend b)
        count := st.count - posixCount b }) :
    LeftClipped req bound range [b] rest st (clipLeft req range st) := by
  have hmem : b ∈ st.after ∧ b.lfOwner = req.owner := by
    apply mem_ownRanges.mp
    rw [hown]
    simp
  have hbeforeId : ∀ a ∈ st.before, a.lfId ≠ b.lfId := by
    have hpairs := htidy.distinct
    rw [pairwise_append] at hpairs
    intro a ha
    exact hpairs.2.2 a ha b (by simp [hmem.1])
  have hrestId : ∀ a ∈ rest, a.lfId ≠ b.lfId := by
    have hsub : List.Sublist ([] ++ b :: rest) (st.before ++ range :: st.after) := by
      rw [nil_append, ← hown]
      exact filter_sublist.trans ((sublist_cons_self _ _).trans (sublist_append_right _ _))
    exact (htidy.sublist hsub).id_ne.2
  have hafter : ownRanges req.owner (tailqRemove b.lfId st.after) = rest := by
    rw [ownRanges_tailqRemove, hown]
    have hremove : tailqRemove b.lfId ([] ++ b :: rest) = [] ++ rest :=
      tailqRemove_middle (by simp) rfl hrestId
    exact hremove
  have hothers : otherRanges req.owner (tailqRemove b.lfId st.after) =
      otherRanges req.owner st.after := by
    apply otherRanges_tailqRemove
    intro a ha hid
    have hab := htidy.eq_of_id (by simp [ha]) (by simp [hmem.1] :
      b ∈ st.before ++ range :: st.after) hid
    rw [hab]
    exact hmem.2
  have hbefore : ownRanges req.owner (st.before ++ [range.extend b]) =
      ownRanges req.owner st.before ++ [range.extend b] := by
    rw [ownRanges_append, ownRanges_cons_own (by exact howner)]
    rfl
  rw [heq]
  simp only [LeftClipped]
  rw [tailqRemove_eq_self hbeforeId]
  constructor
  · constructor
    · have hsub : Tidy bound (st.before ++ range :: tailqRemove b.lfId st.after) :=
        htidy.sublist (List.Sublist.append_left
          (List.Sublist.cons_cons range filter_sublist) st.before)
      apply hsub.congr
      simp [LockfRange.key, LockfRange.extend]
    · simp only
      rw [append_assoc, singleton_append, otherRanges_append,
        otherRanges_append, otherRanges_cons_own (by exact howner),
        otherRanges_cons_own howner, hothers]
    · simp only
      rw [ownRanges_append, hbefore, hafter, ownRanges_append,
        ownRanges_cons_own howner, hown, posixTotal_append,
        posixTotal_append, posixTotal_append, posixTotal_cons,
        posixTotal_cons, posixTotal_cons, posixTotal_nil, posixCount_extend]
      ring
  · refine ⟨[], hafter, Nat.zero_le _, ?_, ?_, trivial⟩
    · intro b hb
      cases hb
    · rw [hbefore, append_nil]
      exact .merged rfl hmatch

theorem clipLeft_spec (st : ClipState) (htidy : Tidy bound (st.before ++ range :: st.after))
    (howner : range.lfOwner = req.owner) (hend : req.start ≤ range.lfEnd + 1)
    (hown : ownRanges req.owner st.after = primary ++ rest) (hbrange : st.brange = primary.head?)
    (hsingle : primary.length ≤ 1) :
    LeftClipped req bound range primary rest st (clipLeft req range st) := by
  have hunchanged : ¬range.lfEnd ≥ req.start → range = { range with lfEnd := req.start - 1 } := by
    intro hlow
    have hstop : range.lfEnd = req.start - 1 := by omega
    rw [← hstop]
  cases primary with
  | nil =>
    have hnone : st.brange = none := hbrange
    apply clipLeft_clipped range.lfNoend htidy howner hown hbrange hsingle
    · intro hne
      exact absurd rfl hne
    · exact fun hopen => ⟨hopen, Or.inl rfl⟩
    · unfold clipLeft
      simp only [hnone]
      split_ifs with hlow
      · rfl
      · rw [← hunchanged hlow]
  | cons b primary =>
    have hempty : primary = [] := by
      rw [length_cons] at hsingle
      exact length_eq_zero_iff.mp (by omega)
    subst hempty
    have hsome : st.brange = some b := hbrange
    by_cases hmatch : lfMatch range req.type req.flags = true
    · apply clipLeft_merged htidy howner hown hmatch
      unfold clipLeft
      simp only [hsome]
      rw [if_pos ⟨by omega, hmatch⟩]
    · have hmatch' : [b] ≠ [] → lfMatch range req.type req.flags = false := by
        intro _
        simpa using hmatch
      by_cases hlow : range.lfEnd ≥ req.start
      · apply clipLeft_clipped false htidy howner hown hbrange hsingle hmatch' (by simp)
        unfold clipLeft
        simp only [hsome]
        rw [if_neg (fun h => hmatch h.2), if_pos hlow]
      · apply clipLeft_clipped range.lfNoend htidy howner hown hbrange hsingle hmatch'
          (fun hopen => ⟨hopen, Or.inr (not_le.mp hlow)⟩)
        unfold clipLeft
        simp only [hsome]
        rw [if_neg (fun h => hmatch h.2), if_neg hlow, ← hunchanged hlow]

end DragonFly.AdvLock
