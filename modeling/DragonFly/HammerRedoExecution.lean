import DragonFly.HammerRedoRecovery

/-!
# Which REDO records stage 2 executes

Stage 2 is run on a FIFO holding an extended range, numbered up to the start
of the nominal UNDO range, and the nominal range itself.  Both scans are
shown to be folds over the records laid down, and the executed requests are
compared with the rule of the recovery algorithm: a request is applicable
unless a matching TERM follows it before the start of the nominal range.
-/

namespace DragonFly.Hammer

open List Prod

/-! ## The scans as folds over the records -/

def runEntries : RtermTree → List (ℕ × HammerFifoHead) → Option (List (ℕ × HammerFifoRedo))
  | _, [] => some []
  | root, (offset, head) :: entries =>
    match hammerRecoverRedoRun root offset head with
    | none => none
    | some (root, redo?) =>
      (runEntries root entries).map fun executed =>
        (redo?.map fun redo => (offset, redo)).toList ++ executed

/-- The requests without a TERM among `all`, with their offsets. -/
def executions (all entries : List (ℕ × HammerFifoHead)) : List (ℕ × HammerFifoRedo) :=
  entries.flatMap fun entry =>
    ((executedBy all entry.2).map fun redo => (entry.1, redo)).toList

variable {root : RtermTree} {all nominal : List (ℕ × HammerFifoHead)}

theorem Records.runEntries_nominal (hrecords : Records root all []) :
    runEntries root nominal = some (executions all nominal) := by
  induction nominal with
  | nil => rfl
  | cons entry nominal ih =>
    obtain ⟨offset, head⟩ := entry
    simp only [runEntries, hrecords.redoRun_nominal, ih, Option.map_some]
    rfl

theorem Records.runEntries (hrecords : Records root all rest) (hsub : rest ⊆ all) :
    Hammer.runEntries root (rest ++ nominal) = some (executions all (rest ++ nominal)) := by
  induction rest generalizing root with
  | nil => exact hrecords.runEntries_nominal
  | cons entry rest ih =>
    obtain ⟨offset, head⟩ := entry
    obtain ⟨root', hrun, hrecords'⟩ := hrecords.redoRun_cons (hsub mem_cons_self)
    have htail := ih hrecords' (fun _ h => hsub (mem_cons_of_mem _ h))
    simp only [cons_append, Hammer.runEntries, hrun, htail, Option.map_some]
    rfl

theorem redoRec_of_isPad
    {head : HammerFifoHead} (hpad : head.isPad = true) (root : RtermTree) (offset : ℕ) :
    hammerRecoverRedoRec root offset head = root := by
  unfold hammerRecoverRedoRec
  unfold HammerFifoHead.isPad at hpad
  cases hany : head.any <;> simp_all

/-- The non-PAD records are numbered `first`, `first + 1`, ... and the next one
would be `next`. -/
def Sequenced : UInt32 → List HammerFifoHead → UInt32 → Prop
  | first, [], next => first = next
  | first, head :: heads, next =>
    if head.isPad then Sequenced first heads next
    else head.hdrSeq = first ∧ Sequenced (first + 1) heads next

variable {first next : UInt32} {heads : List HammerFifoHead}

theorem Sequenced.concat {head : HammerFifoHead} (h : Sequenced first (heads ++ [head]) next) :
    if head.isPad then Sequenced first heads next
    else head.hdrSeq = next - 1 ∧ Sequenced first heads (next - 1) := by
  induction heads generalizing first with
  | nil =>
    simp only [nil_append, Sequenced] at h ⊢
    split_ifs with hpad
    · simpa [hpad] using h
    · rw [if_neg hpad] at h
      obtain ⟨hseq, hnext⟩ := h
      rw [← hnext, hseq]
      simp
  | cons head' heads ih =>
    simp only [cons_append, Sequenced] at h ⊢
    by_cases hpad' : head'.isPad = true
    · simp only [hpad', if_true] at h ⊢
      exact ih h
    · rw [if_neg hpad'] at h
      have htail := ih h.2
      simp only [if_neg hpad']
      split_ifs at htail ⊢
      · exact ⟨h.1, htail⟩
      · exact ⟨htail.1, h.1, htail.2⟩

section Laid

variable {size position : ℕ}

theorem fifoOffset_injective (hp : position ≤ p) (hpq : p < q) (hq : q < position + size) :
    fifoOffset size p ≠ fifoOffset size q := by
  unfold fifoOffset
  split_ifs <;> omega

theorem runRedos_laidOut (before rest : List HammerFifoHead) (root : RtermTree)
    (executed : List (ℕ × HammerFifoRedo)) (hposition : position < size)
    (hfits : Fits size position (before ++ rest)) (hroom : spanSize (before ++ rest) < size)
    (hfuel : rest.length < fuel) :
    runRedos (laidOut size position (before ++ rest))
        (fifoOffset size (position + spanSize (before ++ rest))) fuel
        (fifoOffset size (position + spanSize before)) (spanSize rest) root executed =
      (runEntries root (layout size (position + spanSize before) rest)).map
          fun list => ⟨none, executed ++ list⟩ := by
  induction rest generalizing before fuel root executed with
  | nil =>
    obtain ⟨fuel, rfl⟩ := Nat.exists_eq_add_of_lt hfuel
    simp [runRedos, layout, runEntries]
  | cons head rest ih =>
    obtain ⟨fuel, rfl⟩ := Nat.exists_eq_add_of_lt hfuel
    have hhead := (fits_mem hfits).1
    have hscan := (laidOut_holds hfits hroom.le).scanFwd hposition hfits hroom.le
    have hnext : fifoOffset size (position + spanSize before) ≠ fifoOffset size
            (position + spanSize (before ++ head :: rest)) := by
      simp only [spanSize_append, spanSize_cons, fifoTailSize] at hroom hhead ⊢
      exact fifoOffset_injective (Nat.le_add_right _ _) (by omega)
        (by omega)
    have hpos : (spanSize (head :: rest) : ℤ) > 0 := by
      simp only [spanSize_cons, fifoTailSize] at hhead ⊢
      omega
    have hbytes : (spanSize (head :: rest) : ℤ) - head.hdrSize = spanSize rest := by
      simp
    simp only [length_cons, runRedos, if_pos hpos, if_neg hnext, hscan, layout, runEntries, hbytes]
    cases hrun : hammerRecoverRedoRun root
        (fifoOffset size (position + spanSize before)) head with
    | none => rfl
    | some step =>
      obtain ⟨root', redo?⟩ := step
      have happend : before ++ head :: rest = (before ++ [head]) ++ rest := by simp
      rw [happend] at hfits hroom ⊢
      have hfuel' : rest.length < rest.length + 1 + fuel := by omega
      have htail := ih (before ++ [head]) root'
        (executed ++ (redo?.map fun redo =>
          (fifoOffset size (position + spanSize before), redo)).toList)
        hfits hroom hfuel'
      simp only [htail, Option.map_map]
      simp [Function.comp_def, Nat.add_assoc]

theorem collectTerms_laidOut (rest later : List HammerFifoHead) (hposition : position < size)
    (hfits : Fits size position (ext ++ rest ++ later))
    (hroom : spanSize (ext ++ rest ++ later) < size) (hsequenced : Sequenced first ext next)
    (hext : ext ≠ []) (hscan : scanOffset = fifoOffset size (position + spanSize ext) ∨
      (fifoOffset size (position + spanSize ext) = undoZoneBase ∧ scanOffset = undoZoneBase + size))
    (hfuel : ext.length ≤ fuel) :
    collectTerms (laidOut size position (ext ++ rest ++ later))
        (fifoOffset size position) fuel scanOffset (next - 1)
        (collected (layout size (position + spanSize ext) rest)) =
      some (.ok (collected (layout size position (ext ++ rest)))) := by
  induction ext using List.reverseRecOn generalizing
      rest fuel scanOffset next with
  | nil => exact absurd rfl hext
  | append_singleton ext head ih =>
    obtain ⟨fuel, rfl⟩ : ∃ k, fuel = k + 1 := ⟨fuel - 1, by simp at hfuel; omega⟩
    have happend : ext ++ [head] ++ rest ++ later = ext ++ head :: (rest ++ later) := by simp
    rw [happend] at hfits hroom ⊢
    obtain ⟨hsize, hend⟩ := fits_mem hfits
    have hroom' := hroom
    simp only [spanSize_append, spanSize_cons, fifoTailSize] at hroom' hsize
    have hend' : scanOffset = fifoOffset size (position + spanSize (ext ++ [head])) ∨ scanOffset =
            fifoOffset size (position + spanSize ext) + head.hdrSize := by
      simp only [spanSize_append, spanSize_cons, spanSize_nil, fifoOffset] at hscan ⊢
      split_ifs at hscan ⊢ <;> omega
    have hrev := (laidOut_holds hfits hroom.le).scanRev hposition hfits hroom.le hend'
    have hoffset : ext ≠ [] → ¬fifoOffset size (position + spanSize ext) =
          fifoOffset size position := by
      intro hne
      have hpositive : 0 < spanSize ext := by
        obtain ⟨head', ext', rfl⟩ := exists_cons_of_ne_nil hne
        have hfirst := hfits.1
        simp only [spanSize_cons, fifoTailSize] at hfirst ⊢
        omega
      exact Ne.symm (fifoOffset_injective le_rfl (Nat.lt_add_of_pos_right hpositive) (by omega))
    have hstep : collected (layout size (position + spanSize ext) (head :: rest)) =
          hammerRecoverRedoRec (collected (layout size (position + spanSize (ext ++ [head])) rest))
            (fifoOffset size (position + spanSize ext)) head := by
      simp [layout, collected, Nat.add_assoc]
    have hseq := hsequenced.concat
    have hlist : ext ++ head :: (rest ++ later) = ext ++ (head :: rest) ++ later := by simp
    have hdone : layout size position (ext ++ [head] ++ rest) =
        layout size position (ext ++ head :: rest) := by simp
    simp only [collectTerms, hrev, hdone]
    by_cases hpad : head.isPad = true
    · rw [if_pos hpad] at hseq ⊢
      rw [redoRec_of_isPad hpad] at hstep
      rw [← hstep]
      by_cases hne : ext = []
      · subst hne
        simp
      · rw [if_neg (hoffset hne), hlist]
        exact ih (head :: rest) (by simpa using hfits)
          (by simpa using hroom) hseq hne
          (Or.inl rfl) (by simp at hfuel; omega)
    · rw [if_neg hpad] at hseq ⊢
      rw [if_neg (not_not.mpr hseq.1), ← hstep]
      by_cases hne : ext = []
      · subst hne
        simp
      · rw [if_neg (hoffset hne), hlist]
        exact ih (head :: rest) (by simpa using hfits)
          (by simpa using hroom) hseq.2 hne
          (Or.inl rfl) (by simp at hfuel; omega)

end Laid

/-! ## Applicable requests -/

/-- A TERM_WRITE for the same object and offset as a WRITE, or a TERM_TRUNC for
the same object as a TRUNC. -/
def Terminates (term request : HammerFifoRedo) : Prop :=
  term.redoObjid = request.redoObjid ∧ term.redoLocalization = request.redoLocalization ∧
    (request.redoFlags = .write ∧ term.redoFlags = .termWrite ∧
        term.redoOffset = request.redoOffset ∨
      request.redoFlags = .trunc ∧ term.redoFlags = .termTrunc)

instance (term request : HammerFifoRedo) : Decidable (Terminates term request) :=
  inferInstanceAs (Decidable (_ ∧ _ ∧ _))

def terminatedIn (heads : List HammerFifoHead) (request : HammerFifoRedo) : Bool :=
  heads.any fun head =>
    match head.any with
    | .redo term => decide (Terminates term request)
    | _ => false

def HammerFifoHead.request? (head : HammerFifoHead) : Option HammerFifoRedo :=
  match head.any with
  | .redo redo => if redo.IsRequest then some redo else none
  | _ => none

def requests (keep : HammerFifoRedo → Bool)
    (entries : List (ℕ × HammerFifoHead)) : List (ℕ × HammerFifoRedo) :=
  entries.flatMap fun entry =>
    ((entry.2.request?.filter keep).map fun redo => (entry.1, redo)).toList

/-- The requests that no later record in front of the nominal range
terminates. -/
def applicable (nominal : List (ℕ × HammerFifoHead)) :
    List (ℕ × HammerFifoHead) → List (ℕ × HammerFifoRedo)
  | [] => requests (fun _ => true) nominal
  | entry :: extended =>
    requests (fun redo => !terminatedIn (extended.map Prod.snd) redo)
        [entry] ++
      applicable nominal extended

theorem termFor_requestKey (hrequest : redo.IsRequest) (head : HammerFifoHead) :
    termFor (requestKey redo) head =
      match head.any with
      | .redo term => decide (Terminates term redo)
      | _ => false := by
  unfold termFor
  cases head.any with
  | redo term =>
    simp only [decide_eq_decide, hammerRtermRbCmp_eq_zero]
    unfold SameRterm requestKey rtermKey Terminates HammerFifoRedo.IsTerm
    rcases hrequest with h | h
    · simp only [h, if_true]
      grind
    · simp only [h]
      grind
  | pad | dummy | undo _ => rfl

theorem termOffsets_requestKey_eq_nil (hrequest : redo.IsRequest)
    (entries : List (ℕ × HammerFifoHead)) :
    termOffsets (requestKey redo) entries = [] ↔
      terminatedIn (entries.map Prod.snd) redo = false := by
  simp only [termOffsets, terminatedIn, map_eq_nil_iff,
    filter_eq_nil_iff, termFor_requestKey hrequest]
  simp

theorem executions_eq_requests (all entries : List (ℕ × HammerFifoHead)) :
    executions all entries = requests (fun redo => !terminatedIn (all.map Prod.snd) redo)
        entries := by
  have hentry (head : HammerFifoHead) : executedBy all head =
        head.request?.filter fun redo =>
          !terminatedIn (all.map snd) redo := by
    unfold executedBy HammerFifoHead.request?
    cases head.any with
    | redo redo =>
      by_cases hrequest : redo.IsRequest
      · have hnil := termOffsets_requestKey_eq_nil hrequest all
        simp [hrequest, hnil, Option.filter]
      · simp [hrequest]
    | pad | dummy | undo _ => rfl
  simp only [executions, requests, hentry]

theorem requests_cons (keep : HammerFifoRedo → Bool) (entry : ℕ × HammerFifoHead)
    (entries : List (ℕ × HammerFifoHead)) :
    requests keep (entry :: entries) = requests keep [entry] ++ requests keep entries := by
  simp [requests]

theorem requests_singleton_eq_iff (entry : ℕ × HammerFifoHead)
    (hle : ∀ redo, keep redo = true → keep' redo = true) :
    (requests keep [entry]).length ≤ (requests keep' [entry]).length ∧
      (requests keep [entry] = requests keep' [entry] ↔
        ∀ redo, entry.2.request? = some redo → keep' redo = true → keep redo = true) := by
  cases hrequest : entry.2.request? with
  | none => simp [requests, hrequest]
  | some redo =>
    cases hk : keep redo <;> cases hk' : keep' redo <;>
      simp_all [requests, Option.filter]

private theorem append_eq_append_iff_of_length_le {a a' b b' : List α} (ha : a.length ≤ a'.length)
    (hb : b.length ≤ b'.length) : a ++ b = a' ++ b' ↔ a = a' ∧ b = b' := by
  constructor
  · intro h
    have hlength := congrArg List.length h
    simp only [length_append] at hlength
    exact append_inj h (by omega)
  · rintro ⟨rfl, rfl⟩
    rfl

theorem requests_eq_iff
    (keep keep' : HammerFifoRedo → Bool) (hle : ∀ redo, keep redo = true → keep' redo = true)
    (entries : List (ℕ × HammerFifoHead)) :
    (requests keep entries).length ≤ (requests keep' entries).length ∧
      (requests keep entries = requests keep' entries ↔
        ∀ entry ∈ entries, ∀ redo, entry.2.request? = some redo →
          keep' redo = true → keep redo = true) := by
  induction entries with
  | nil => simp [requests]
  | cons entry entries ih =>
    obtain ⟨hlength, hiff⟩ := requests_singleton_eq_iff entry hle
    rw [requests_cons, requests_cons keep']
    refine ⟨?_, ?_⟩
    · simp only [length_append]
      omega
    · rw [append_eq_append_iff_of_length_le hlength ih.1, hiff, ih.2]
      simp

theorem terminatedIn_cons (head : HammerFifoHead) (h : terminatedIn heads request = true) :
    terminatedIn (head :: heads) request = true := by
  unfold terminatedIn at h ⊢
  rw [any_cons, h, Bool.or_true]

/-- Masking requests by all TERMs of `all` instead of by the later ones keeps
the same requests only if no request lies behind its last TERM. -/
theorem executions_eq_applicable_iff (all rest nominal : List (ℕ × HammerFifoHead))
    (hsub : ∀ request, terminatedIn (rest.map Prod.snd) request = true →
        terminatedIn (all.map Prod.snd) request = true) :
    (executions all (rest ++ nominal)).length ≤ (applicable nominal rest).length ∧
      (executions all (rest ++ nominal) = applicable nominal rest ↔ (∀ before head after request,
          rest.map Prod.snd = before ++ head :: after → head.request? = some request →
            terminatedIn (all.map Prod.snd) request = true → terminatedIn after request = true) ∧
        ∀ entry ∈ nominal, ∀ request, entry.2.request? = some request →
          terminatedIn (all.map Prod.snd) request = false) := by
  rw [executions_eq_requests]
  induction rest with
  | nil =>
    obtain ⟨hlength, hiff⟩ := requests_eq_iff (fun redo => !terminatedIn (all.map snd) redo)
      (fun _ => true) (fun _ _ => rfl) nominal
    refine ⟨hlength, ?_⟩
    rw [nil_append, applicable, hiff]
    simp
  | cons entry rest ih =>
    have hle : ∀ redo, (!terminatedIn (all.map snd) redo) = true →
          (!terminatedIn (rest.map snd) redo) = true := by
      intro redo h
      by_contra hne
      have hrest : terminatedIn (rest.map snd) redo = true := by
        simpa using hne
      have hall := hsub redo (terminatedIn_cons entry.2 hrest)
      simp [hall] at h
    obtain ⟨hlength, hiff⟩ := requests_singleton_eq_iff entry hle
    obtain ⟨hlength', hiff'⟩ := ih fun request h =>
      hsub request (terminatedIn_cons entry.2 h)
    rw [cons_append, requests_cons, applicable]
    refine ⟨?_, ?_⟩
    · simp only [length_append]
      omega
    · rw [append_eq_append_iff_of_length_le hlength hlength', hiff, hiff']
      constructor
      · rintro ⟨hfirst, hrest, hnominal⟩
        refine ⟨?_, hnominal⟩
        intro before head after request hsplit hrequest hterminated
        cases before with
        | nil =>
          simp only [map_cons, nil_append, List.cons.injEq] at hsplit
          obtain ⟨rfl, rfl⟩ := hsplit
          by_contra hne
          have hkept := hfirst request hrequest (by simpa using hne)
          simp [hterminated] at hkept
        | cons first before =>
          simp only [map_cons, cons_append, List.cons.injEq] at hsplit
          exact hrest before head after request hsplit.2 hrequest hterminated
      · rintro ⟨hrest, hnominal⟩
        refine ⟨?_, ?_, hnominal⟩
        · intro request hrequest hkept
          by_contra hne
          have hterminated : terminatedIn (all.map snd) request = true := by
            simpa using hne
          have hlater := hrest [] entry.2 (rest.map snd) request rfl hrequest hterminated
          simp [hlater] at hkept
        · intro before head after request hsplit
          exact hrest (entry.2 :: before) head after request (by simp [hsplit])

theorem map_snd_layout (size position : ℕ) (heads : List HammerFifoHead) :
    (layout size position heads).map Prod.snd = heads := by
  induction heads generalizing position with
  | nil => rfl
  | cons head heads ih => simp [layout, ih]

/-! ## The ranges stage 2 is started with -/

/-- The FIFO as stage 1 leaves it to stage 2.  The extended range starts either
before the nominal range or, in which case `extended` is empty, behind the
`skipped` records inside it.  The REDO_SYNC record that named the start lies in
`nominal`.  `firstOffset` may still be the end of the zone, since the flusher
copies it from an append offset that is wrapped by the next append only. -/
structure RedoRange where
  size : ℕ
  position : ℕ
  extended : List HammerFifoHead
  skipped : List HammerFifoHead
  nominal : List HammerFifoHead
  firstOffset : ℕ
  firstSeqno : UInt32
  recoverStage2Seqno : UInt32
  size_lt : size < 2 ^ 60
  position_lt : position < size
  fits : Fits size position (extended ++ skipped ++ nominal)
  room : spanSize (extended ++ skipped ++ nominal) < size
  embedded : extended = [] ∨ skipped = []
  nominal_ne_nil : nominal ≠ []
  sequenced : Sequenced firstSeqno extended recoverStage2Seqno
  firstOffset_eq :
    firstOffset = fifoOffset size (position + spanSize extended) ∨
      (fifoOffset size (position + spanSize extended) = undoZoneBase ∧
        firstOffset = undoZoneBase + size)

namespace RedoRange

variable (range : RedoRange)

def fifo : UndoFifo :=
  laidOut range.size range.position (range.extended ++ range.skipped ++ range.nominal)

def lastOffset : ℕ :=
  fifoOffset range.size (range.position +
    spanSize (range.extended ++ range.skipped ++ range.nominal))

def recoverStage2Offset : ℕ :=
  fifoOffset range.size (range.position + spanSize range.skipped)

def extendedEntries : List (ℕ × HammerFifoHead) :=
  layout range.size range.position range.extended

def nominalEntries : List (ℕ × HammerFifoHead) :=
  layout range.size (range.position + spanSize (range.extended ++ range.skipped)) range.nominal

def fuel : ℕ :=
  (range.extended ++ range.skipped ++ range.nominal).length + 1

def stage2 : Option Stage2Result :=
  hammerRecoverStage2 range.fuel range.fifo range.firstOffset
    range.lastOffset range.recoverStage2Offset range.recoverStage2Seqno

/-- The nominal range wraps and the extended range starts exactly where it
does.  Stage 2 then looks for TERMs in front of the nominal range. -/
def WrapsAtStart : Prop :=
  range.extended = [] ∧ range.skipped = [] ∧ range.lastOffset < range.firstOffset ∧
    range.firstOffset = range.recoverStage2Offset

theorem nominal_span : 0 < spanSize range.nominal := by
  obtain ⟨head, heads, hnominal⟩ := exists_cons_of_ne_nil range.nominal_ne_nil
  have hfits := (fits_append.mp range.fits).2
  rw [hnominal] at hfits ⊢
  have hhead := hfits.1
  simp only [spanSize_cons, fifoTailSize] at hhead ⊢
  omega

theorem extended_span (hextended : range.extended ≠ []) : 0 < spanSize range.extended := by
  obtain ⟨head, heads, hheads⟩ := exists_cons_of_ne_nil hextended
  have hfits := range.fits
  rw [hheads] at hfits ⊢
  have hhead := hfits.1
  simp only [spanSize_cons, fifoTailSize] at hhead ⊢
  omega

private theorem undoZoneBase_eq : undoZoneBase = 3 * 2 ^ 60 := by
  rfl

theorem nominalBytes_eq :
    nominalBytes range.fifo.allocOffset range.firstOffset range.lastOffset =
      spanSize range.skipped + spanSize range.nominal := by
  have hfirst := range.firstOffset_eq
  have hroom := range.room
  have hsize := range.size_lt
  simp only [nominalBytes, fifo, laidOut, lastOffset, offLongMask,
    spanSize_append, fifoOffset, undoZoneBase_eq] at hfirst hroom ⊢
  split_ifs at hfirst ⊢ <;> omega

theorem extendedRange_fst :
    (extendedRange range.fifo.allocOffset range.firstOffset
        range.lastOffset range.recoverStage2Offset).1 =
      spanSize range.extended - spanSize range.skipped := by
  have hfirst := range.firstOffset_eq
  have hroom := range.room
  have hspan := range.nominal_span
  have hsize := range.size_lt
  simp only [extendedRange, fifo, laidOut, lastOffset, offLongMask,
    recoverStage2Offset, spanSize_append, fifoOffset,
    undoZoneBase_eq] at hfirst hroom ⊢
  split_ifs at hfirst ⊢ <;> omega

theorem dorscan_of_extended (hextended : range.extended ≠ []) :
    (extendedRange range.fifo.allocOffset range.firstOffset
      range.lastOffset range.recoverStage2Offset).2 = true := by
  have hfirst := range.firstOffset_eq
  have hroom := range.room
  have hspan := range.nominal_span
  have hpositive := range.extended_span hextended
  have hskipped : spanSize range.skipped = 0 := by
    rcases range.embedded with h | h
    · exact absurd h hextended
    · simp [h]
  simp only [extendedRange, fifo, laidOut, lastOffset,
    recoverStage2Offset, spanSize_append, fifoOffset] at hfirst hroom ⊢
  split_ifs at hfirst ⊢ <;> first | rfl | omega

theorem dorscan_iff_of_embedded (hextended : range.extended = []) :
    (extendedRange range.fifo.allocOffset range.firstOffset
        range.lastOffset range.recoverStage2Offset).2 = true ↔ range.WrapsAtStart := by
  have hfirst := range.firstOffset_eq
  have hroom := range.room
  have hspan := range.nominal_span
  have hnil : range.skipped = [] ↔ spanSize range.skipped = 0 := by
    constructor
    · intro h
      simp [h]
    · intro h
      by_contra hne
      obtain ⟨head, heads, hheads⟩ := exists_cons_of_ne_nil hne
      have hfits := (fits_append.mp (fits_append.mp range.fits).1).2
      rw [hheads] at hfits h
      have hhead := hfits.1
      simp only [spanSize_cons, fifoTailSize] at hhead h
      omega
  simp only [WrapsAtStart, hextended, true_and, hnil]
  simp only [extendedRange, fifo, laidOut, lastOffset,
    recoverStage2Offset, spanSize_append, fifoOffset, hextended,
    spanSize_nil] at hfirst hroom ⊢
  split_ifs at hfirst ⊢ <;> simp <;> omega

theorem firstOffset_ne_lastOffset : range.firstOffset ≠ range.lastOffset := by
  have hfirst := range.firstOffset_eq
  have hroom := range.room
  have hspan := range.nominal_span
  simp only [lastOffset, spanSize_append, fifoOffset] at hfirst hroom ⊢
  split_ifs at hfirst ⊢ <;> omega

theorem recoverStage2Offset_ne_zero : range.recoverStage2Offset ≠ 0 := by
  simp only [recoverStage2Offset, fifoOffset, undoZoneBase_eq]
  omega

theorem nominalBytes_not_absurd :
    ¬nominalBytes range.fifo.allocOffset range.firstOffset
        range.lastOffset > offLongMask range.fifo.allocOffset := by
  have hroom := range.room
  have hsize := range.size_lt
  rw [range.nominalBytes_eq]
  simp only [offLongMask, fifo, laidOut, undoZoneBase_eq, spanSize_append] at hroom ⊢
  omega

theorem heads_eq :
    range.extended ++ range.skipped ++ range.nominal =
      range.skipped ++ (range.extended ++ range.nominal) := by
  rcases range.embedded with h | h <;> simp [h]

theorem entries_eq :
    layout range.size (range.position + spanSize range.skipped) (range.extended ++ range.nominal) =
      range.extendedEntries ++ range.nominalEntries := by
  unfold extendedEntries nominalEntries
  rcases range.embedded with h | h <;> simp [h, layout, layout_append]

theorem collect_eq (hwraps : ¬range.WrapsAtStart) :
    (if (extendedRange range.fifo.allocOffset range.firstOffset
        range.lastOffset range.recoverStage2Offset).2 = true then
      collectTerms range.fifo range.recoverStage2Offset range.fuel
        range.firstOffset (range.recoverStage2Seqno - 1) []
    else some (.ok [])) = some (.ok (collected range.extendedEntries)) := by
  by_cases hextended : range.extended = []
  · rw [if_neg (mt (range.dorscan_iff_of_embedded hextended).mp hwraps)]
    simp [extendedEntries, hextended, layout, collected]
  · rw [if_pos (range.dorscan_of_extended hextended)]
    have hskipped : range.skipped = [] := range.embedded.resolve_left hextended
    have hfuel : range.extended.length ≤ range.fuel := by
      simp only [fuel, length_append]
      omega
    have hcollect := collectTerms_laidOut [] (range.skipped ++ range.nominal)
      range.position_lt (by simpa using range.fits)
      (by simpa using range.room) range.sequenced hextended
      range.firstOffset_eq hfuel
    simpa [fifo, recoverStage2Offset, hskipped, extendedEntries, layout, collected] using hcollect

theorem stage2_eq (hwraps : ¬range.WrapsAtStart) :
    range.stage2 = some ⟨none, executions range.extendedEntries
        (range.extendedEntries ++ range.nominalEntries)⟩ := by
  have hbytes := range.nominalBytes_eq
  have hext := range.extendedRange_fst
  have hcollect := range.collect_eq hwraps
  have htotal : (spanSize range.skipped + spanSize range.nominal : ℤ) +
          (spanSize range.extended - spanSize range.skipped) =
        (spanSize (range.extended ++ range.nominal) : ℕ) := by
    push_cast [spanSize_append]
    ring
  have hfuel : (range.extended ++ range.nominal).length < range.fuel := by
    simp [fuel]
  have hrun := runRedos_laidOut range.skipped (range.extended ++ range.nominal)
    (collected range.extendedEntries) []
    range.position_lt (range.heads_eq ▸ range.fits)
    (range.heads_eq ▸ range.room) hfuel
  rw [← range.heads_eq, range.entries_eq, (records_collected range.extendedEntries).runEntries
      (List.Subset.refl _)] at hrun
  unfold stage2 hammerRecoverStage2
  rw [if_neg range.firstOffset_ne_lastOffset, if_neg range.recoverStage2Offset_ne_zero]
  simp only [if_neg range.nominalBytes_not_absurd, hcollect]
  rw [hbytes, hext, htotal]
  exact hrun

theorem stage2_of_wrapsAtStart (hwraps : range.WrapsAtStart) :
    range.stage2 = some ⟨some .eio, []⟩ := by
  have hdorscan := (range.dorscan_iff_of_embedded hwraps.1).mpr hwraps
  have hscan : hammerRecoverScanRev range.fifo range.firstOffset = .error .eio := by
    refine scanRev_laidOut_start range.position_lt range.fits range.room (Or.inl ?_)
    rw [hwraps.2.2.2, recoverStage2Offset, hwraps.2.1]
    simp
  have hcollect : collectTerms range.fifo range.recoverStage2Offset range.fuel
          range.firstOffset (range.recoverStage2Seqno - 1) [] =
        some (.error .eio) := by
    simp only [fuel, collectTerms, hscan]
  unfold stage2 hammerRecoverStage2
  simp only [if_neg range.firstOffset_ne_lastOffset, if_neg range.recoverStage2Offset_ne_zero,
    if_neg range.nominalBytes_not_absurd, hdorscan, if_true, hcollect]

/-- No request follows the last of the TERMs that match it in front of the
nominal range, and a nominal range that wraps makes no request if the extended
range starts where it does. -/
structure TermsFollowRequests : Prop where
  extended : ∀ before head after request, range.extended = before ++ head :: after →
      head.request? = some request →
      terminatedIn range.extended request = true →
      terminatedIn after request = true
  nominal : ∀ head ∈ range.nominal, ∀ request, head.request? = some request →
      terminatedIn range.extended request = false
  wraps : range.WrapsAtStart → ∀ head ∈ range.nominal, head.request? = none

theorem applicable_eq_nil_iff (hextended : range.extended = []) :
    applicable range.nominalEntries range.extendedEntries = [] ↔
      ∀ head ∈ range.nominal, head.request? = none := by
  have hentries : range.extendedEntries = [] := by
    simp [extendedEntries, hextended, layout]
  have hmem : ∀ head, head ∈ range.nominal ↔ ∃ offset, (offset, head) ∈ range.nominalEntries := by
    intro head
    have hmap := map_snd_layout range.size
      (range.position + spanSize (range.extended ++ range.skipped))
      range.nominal
    nth_rewrite 1 [← hmap]
    simp [nominalEntries]
  simp only [hentries, applicable, requests, flatMap_eq_nil_iff, hmem]
  constructor
  · rintro h head ⟨offset, hentry⟩
    have hnone := h (offset, head) hentry
    exact Option.eq_none_iff_forall_not_mem.mpr (by simpa using hnone)
  · rintro h ⟨offset, head⟩ hentry
    simp [h head ⟨offset, hentry⟩]

/-- Stage 2 executes exactly the applicable requests if and only if no request
follows the last of its TERMs. -/
theorem stage2_executes_applicable_iff :
    range.stage2.map Stage2Result.executed =
        some (applicable range.nominalEntries range.extendedEntries) ↔
      range.TermsFollowRequests := by
  have hextended : range.extendedEntries.map snd = range.extended := map_snd_layout _ _ _
  have hnominal : range.nominalEntries.map snd = range.nominal := map_snd_layout _ _ _
  obtain ⟨-, hiff⟩ := executions_eq_applicable_iff
    range.extendedEntries range.extendedEntries range.nominalEntries
    (fun _ h => h)
  rw [hextended] at hiff
  have hentries : (∀ entry ∈ range.nominalEntries, ∀ request, entry.2.request? = some request →
          terminatedIn range.extended request = false) ↔
      ∀ head ∈ range.nominal, ∀ request, head.request? = some request →
        terminatedIn range.extended request = false := by
    rw [← hnominal, forall_mem_map]
  rw [hentries] at hiff
  by_cases hwraps : range.WrapsAtStart
  · rw [range.stage2_of_wrapsAtStart hwraps]
    have hnil := range.applicable_eq_nil_iff hwraps.1
    constructor
    · intro h
      have hnone := hnil.mp (by simpa using h.symm)
      refine ⟨?_, ?_, fun _ => hnone⟩
      · intro before head after request hsplit
        simp [hwraps.1] at hsplit
      · intro head hhead request hrequest
        simp [hnone head hhead] at hrequest
    · intro h
      simp [hnil.mpr (h.wraps hwraps)]
  · rw [range.stage2_eq hwraps, Option.map_some, Option.some.injEq, hiff]
    constructor
    · rintro ⟨h1, h2⟩
      exact ⟨h1, h2, fun h => absurd h hwraps⟩
    · intro h
      exact ⟨h.extended, h.nominal⟩

/-- WRITE@0 TERM@0 WRITE@0 in the extended range and the REDO_SYNC in the
nominal one. -/
def writeTermWrite : RedoRange where
  size := 2 ^ 14
  position := 0
  extended := [
    ⟨72, 7, .redo ⟨1, 0, 1, .write, 2, [0]⟩⟩,
    ⟨64, 8, .redo ⟨1, 0, 0, .termWrite, 2, []⟩⟩,
    ⟨72, 9, .redo ⟨1, 0, 1, .write, 2, [1]⟩⟩]
  skipped := []
  nominal := [⟨64, 10, .redo ⟨0, undoZoneBase, 0, .sync, 0, []⟩⟩]
  firstOffset := undoZoneBase + 208
  firstSeqno := 7
  recoverStage2Seqno := 10
  size_lt := by decide
  position_lt := by decide
  fits := by simp [Fits, fifoTailSize]
  room := by decide
  embedded := Or.inr rfl
  nominal_ne_nil := by simp
  sequenced := by simp [Sequenced, HammerFifoHead.isPad]
  firstOffset_eq := by decide

/-- The second WRITE is applicable and is not executed. -/
theorem writeTermWrite_not_executed :
    writeTermWrite.stage2 = some ⟨none, []⟩ ∧ applicable writeTermWrite.nominalEntries
          writeTermWrite.extendedEntries = [(undoZoneBase + 136, ⟨1, 0, 1, .write, 2, [1]⟩)] := by
  decide

end RedoRange

end DragonFly.Hammer
