import DragonFly.HammerFifo

/-!
# Stage 2 of HAMMER recovery

Stage 2 scans the extended range backwards and collects the REDO_TERM_*
records in a tree keyed by object, localization, flags and offset, and then
scans forwards to the end of the nominal UNDO range and executes the
REDO_WRITE and REDO_TRUNC records it does not find a TERM for.

The stage is modelled with `RECOVERY_REQ` set and `hammer_skip_redo` zero.  It
reports the REDOs handed to `hammer_recover_redo_exec`, in order, together
with the FIFO offsets of their records; `none` is a failed `KKASSERT`.
-/

namespace DragonFly.Hammer

/-- One node of the TERM tree; `termList` holds FIFO offsets. -/
structure HammerRterm where
  redoObjid : ℤ
  redoLocalization : ℕ
  redoFlags : RedoFlags
  redoOffset : ℕ
  termList : List ℕ
  deriving DecidableEq

/-- The comparison of the TERM tree.  TERM_TRUNC ignores the offset. -/
def hammerRtermRbCmp (rt1 rt2 : HammerRterm) : ℤ :=
  if rt1.redoObjid < rt2.redoObjid then -1
  else if rt1.redoObjid > rt2.redoObjid then 1
  else if rt1.redoLocalization < rt2.redoLocalization then -1
  else if rt1.redoLocalization > rt2.redoLocalization then 1
  else if rt1.redoFlags.code < rt2.redoFlags.code then -1
  else if rt1.redoFlags.code > rt2.redoFlags.code then 1
  else if rt1.redoFlags ≠ .termTrunc then
    if rt1.redoOffset < rt2.redoOffset then -1
    else if rt1.redoOffset > rt2.redoOffset then 1
    else 0
  else 0

abbrev RtermTree := List HammerRterm

def RtermTree.find (root : RtermTree) (key : HammerRterm) : Option HammerRterm :=
  List.find? (fun rterm => hammerRtermRbCmp rterm key = 0) root

def RtermTree.setTermList (root : RtermTree) (key : HammerRterm)
    (update : List ℕ → List ℕ) : RtermTree :=
  List.map (fun rterm =>
    if hammerRtermRbCmp rterm key = 0 then
      { rterm with termList := update rterm.termList }
    else rterm) root

def rtermKey (redo : HammerFifoRedo) (flags : RedoFlags) : HammerRterm where
  redoObjid := redo.redoObjid
  redoLocalization := redo.redoLocalization
  redoFlags := flags
  redoOffset := redo.redoOffset
  termList := []

def hammerRecoverRedoRec (root : RtermTree) (scanOffset : ℕ) (head : HammerFifoHead) : RtermTree :=
  match head.any with
  | .redo redo =>
    if redo.redoFlags ≠ .termWrite ∧ redo.redoFlags ≠ .termTrunc then
      root
    else
      let nrterm := rtermKey redo redo.redoFlags
      match root.find nrterm with
      | some _ => root.setTermList nrterm fun list => scanOffset :: list
      | none => { nrterm with termList := [scanOffset] } :: root
  | _ => root

/-- What the forward pass does with one record: the TERM tree afterwards and
the REDO executed, if any. -/
def hammerRecoverRedoRun (root : RtermTree) (scanOffset : ℕ) (head : HammerFifoHead) :
    Option (RtermTree × Option HammerFifoRedo) :=
  match head.any with
  | .redo redo =>
    match redo.redoFlags with
    | .write | .trunc =>
      let flags :=
        if redo.redoFlags = .write then RedoFlags.termWrite
        else RedoFlags.termTrunc
      match root.find (rtermKey redo flags) with
      | some _ => some (root, none)
      | none => some (root, some redo)
    | .termWrite | .termTrunc =>
      let rtval := rtermKey redo redo.redoFlags
      match root.find rtval with
      | some rterm =>
        match rterm.termList with
        | [] => some (root, none)
        | fifoOffset :: _ =>
          -- KKASSERT(rte->fifo_offset == scan_offset)
          if fifoOffset = scanOffset then
            some (root.setTermList rtval List.tail, none)
          else none
      | none => some (root, none)
    | .sync => some (root, none)
  | _ => some (root, none)

/-- The reverse scan over the extended range. -/
def collectTerms (fifo : UndoFifo) (extOffset : ℕ) :
    ℕ → ℕ → UInt32 → RtermTree → Option (Except Errno RtermTree)
  | 0, _, _, _ => none
  | fuel + 1, scanOffset, seqno, root =>
    match hammerRecoverScanRev fifo scanOffset with
    | .error errno => some (.error errno)
    | .ok (head, offset) =>
      if head.isPad then
        if offset = extOffset then some (.ok root)
        else collectTerms fifo extOffset fuel offset seqno root
      else if head.hdrSeq ≠ seqno then
        some (.error .erange)
      else
        let root := hammerRecoverRedoRec root offset head
        if offset = extOffset then some (.ok root)
        else collectTerms fifo extOffset fuel offset (seqno - 1) root

structure Stage2Result where
  error : Option Errno
  executed : List (ℕ × HammerFifoRedo)
  deriving DecidableEq

/-- The forward scan; `bytes` is the size of the range still to be scanned. -/
def runRedos (fifo : UndoFifo) (lastOffset : ℕ) :
    ℕ → ℕ → ℤ → RtermTree → List (ℕ × HammerFifoRedo) → Option Stage2Result
  | 0, _, _, _, _ => none
  | fuel + 1, scanOffset, bytes, root, executed =>
    if bytes > 0 then
      if scanOffset = lastOffset then none
      else
        match hammerRecoverScanFwd fifo scanOffset with
        | .error errno => some ⟨some errno, executed⟩
        | .ok (head, next) =>
          match hammerRecoverRedoRun root scanOffset head with
          | none => none
          | some (root, redo?) =>
            runRedos fifo lastOffset fuel next (bytes - head.hdrSize) root
              (executed ++ (redo?.map fun redo => (scanOffset, redo)).toList)
    else if bytes = 0 then some ⟨none, executed⟩
    else none

/-- The size of the extended range and whether it has to be scanned for
TERMs.  The size is negative for a range inside the nominal one. -/
def extendedRange (allocOffset firstOffset lastOffset extOffset : ℕ) : ℤ × Bool :=
  if firstOffset < lastOffset then
    if extOffset < firstOffset then
      ((firstOffset : ℤ) - extOffset, true)
    else if extOffset > lastOffset then
      (((allocOffset : ℤ) - extOffset) + offLongMask firstOffset, true)
    else
      (-((extOffset : ℤ) - firstOffset), false)
  else
    if extOffset < lastOffset then
      (-(((allocOffset : ℤ) - firstOffset) + offLongMask extOffset), false)
    else if extOffset > firstOffset then
      (-((extOffset : ℤ) - firstOffset), false)
    else
      ((firstOffset : ℤ) - extOffset, true)

/-- `fuel` bounds the iterations of each of the two scans. -/
def hammerRecoverStage2 (fuel : ℕ) (fifo : UndoFifo)
    (firstOffset lastOffset recoverStage2Offset : ℕ)
    (recoverStage2Seqno : UInt32) : Option Stage2Result :=
  if firstOffset = lastOffset then
    none
  else if recoverStage2Offset = 0 then
    some ⟨none, []⟩
  else
    let bytes := nominalBytes fifo.allocOffset firstOffset lastOffset
    if bytes > offLongMask fifo.allocOffset then
      some ⟨some .eio, []⟩
    else
      let (extBytes, dorscan) :=
        extendedRange fifo.allocOffset firstOffset lastOffset recoverStage2Offset
      let collected :=
        if dorscan then
          collectTerms fifo recoverStage2Offset fuel firstOffset (recoverStage2Seqno - 1) []
        else some (.ok [])
      match collected with
      | none => none
      | some (.error errno) => some ⟨some errno, []⟩
      | some (.ok root) =>
        runRedos fifo lastOffset fuel recoverStage2Offset (bytes + extBytes) root []

/-! ## The TERM tree -/

def SameRterm (rt1 rt2 : HammerRterm) : Prop :=
  rt1.redoObjid = rt2.redoObjid ∧ rt1.redoLocalization = rt2.redoLocalization ∧
    rt1.redoFlags = rt2.redoFlags ∧
    (rt1.redoFlags ≠ .termTrunc → rt1.redoOffset = rt2.redoOffset)

theorem RedoFlags.code_injective : Function.Injective RedoFlags.code := by
  intro a b h
  cases a <;> cases b <;> simp_all [RedoFlags.code]

variable {rt1 rt2 : HammerRterm} {offset : ℕ} {redo : HammerFifoRedo} {head : HammerFifoHead}
  {all : List (ℕ × HammerFifoHead)} {root : RtermTree}

theorem hammerRtermRbCmp_eq_zero : hammerRtermRbCmp rt1 rt2 = 0 ↔ SameRterm rt1 rt2 := by
  have hflags : rt1.redoFlags = rt2.redoFlags ↔ rt1.redoFlags.code = rt2.redoFlags.code :=
    RedoFlags.code_injective.eq_iff.symm
  unfold hammerRtermRbCmp SameRterm
  rw [hflags]
  split_ifs with h1 h2 h3 h4 h5 h6 h7 h8 h9 <;> grind

theorem SameRterm.symm (h : SameRterm rt1 rt2) : SameRterm rt2 rt1 := by
  obtain ⟨hobjid, hlocalization, hflags, hoffset⟩ := h
  refine ⟨hobjid.symm, hlocalization.symm, hflags.symm, ?_⟩
  intro hne
  exact (hoffset (hflags ▸ hne)).symm

theorem SameRterm.trans (h12 : SameRterm rt1 rt2) (h23 : SameRterm rt2 rt3) :
    SameRterm rt1 rt3 := by
  refine ⟨h12.1.trans h23.1, h12.2.1.trans h23.2.1, h12.2.2.1.trans h23.2.2.1, ?_⟩
  intro hne
  exact (h12.2.2.2 hne).trans (h23.2.2.2 (h12.2.2.1 ▸ hne))

/-- The offsets recorded under a key, or `none` if the tree has no node. -/
def RtermTree.terms (root : RtermTree) (key : HammerRterm) : Option (List ℕ) :=
  (root.find key).map HammerRterm.termList

theorem RtermTree.terms_cons (rterm key : HammerRterm) (root : RtermTree) :
    RtermTree.terms (rterm :: root) key = if hammerRtermRbCmp rterm key = 0 then some rterm.termList
      else root.terms key := by
  unfold RtermTree.terms RtermTree.find
  rw [List.find?_cons]
  split_ifs with hkey <;> simp [hkey]

theorem RtermTree.terms_congr (h : SameRterm key key') (root : RtermTree) :
    root.terms key = root.terms key' := by
  induction root with
  | nil => rfl
  | cons rterm root ih =>
    have hkey : hammerRtermRbCmp rterm key = 0 ↔ hammerRtermRbCmp rterm key' = 0 := by
      rw [hammerRtermRbCmp_eq_zero, hammerRtermRbCmp_eq_zero]
      exact ⟨fun h1 => h1.trans h, fun h1 => h1.trans h.symm⟩
    rw [terms_cons, terms_cons, ih]
    simp only [hkey]

theorem RtermTree.terms_setTermList
    (root : RtermTree) (key key' : HammerRterm) (update : List ℕ → List ℕ) :
    (root.setTermList key update).terms key' =
      if hammerRtermRbCmp key key' = 0 then (root.terms key').map update
      else root.terms key' := by
  induction root with
  | nil => split_ifs <;> rfl
  | cons rterm root ih =>
    have hcons : RtermTree.setTermList (rterm :: root) key update =
          (if hammerRtermRbCmp rterm key = 0 then
            { rterm with termList := update rterm.termList }
          else rterm) :: RtermTree.setTermList root key update := rfl
    rw [hcons, terms_cons, terms_cons, ih]
    by_cases h1 : hammerRtermRbCmp rterm key = 0
    · rw [if_pos h1]
      have h1' := hammerRtermRbCmp_eq_zero.mp h1
      have hiff : hammerRtermRbCmp { rterm with termList := update rterm.termList } key' = 0 ↔
            hammerRtermRbCmp key key' = 0 := by
        rw [hammerRtermRbCmp_eq_zero, hammerRtermRbCmp_eq_zero]
        exact ⟨fun h => h1'.symm.trans h, fun h => h1'.trans h⟩
      have hiff' : hammerRtermRbCmp rterm key' = 0 ↔ hammerRtermRbCmp key key' = 0 := hiff
      by_cases h2 : hammerRtermRbCmp key key' = 0
      · simp [h2, hiff.mpr h2, hiff'.mpr h2]
      · rw [if_neg (mt hiff.mp h2), if_neg h2, if_neg h2, if_neg (mt hiff'.mp h2)]
    · rw [if_neg h1]
      by_cases h2 : hammerRtermRbCmp key key' = 0
      · have h3 : ¬hammerRtermRbCmp rterm key' = 0 := by
          rw [hammerRtermRbCmp_eq_zero] at h1 h2 ⊢
          exact fun h => h1 (h.trans h2.symm)
        simp [h2, h3]
      · simp [h2]

def HammerFifoRedo.IsTerm (redo : HammerFifoRedo) : Prop :=
  redo.redoFlags = .termWrite ∨ redo.redoFlags = .termTrunc

def HammerFifoRedo.IsRequest (redo : HammerFifoRedo) : Prop :=
  redo.redoFlags = .write ∨ redo.redoFlags = .trunc

instance (redo : HammerFifoRedo) : Decidable redo.IsTerm :=
  inferInstanceAs (Decidable (_ ∨ _))

instance (redo : HammerFifoRedo) : Decidable redo.IsRequest :=
  inferInstanceAs (Decidable (_ ∨ _))

def requestKey (redo : HammerFifoRedo) : HammerRterm :=
  rtermKey redo
    (if redo.redoFlags = .write then .termWrite else .termTrunc)

def termFor (key : HammerRterm) (head : HammerFifoHead) : Bool :=
  match head.any with
  | .redo redo =>
    decide (redo.IsTerm ∧ hammerRtermRbCmp (rtermKey redo redo.redoFlags) key = 0)
  | _ => false

def termOffsets (key : HammerRterm) (entries : List (ℕ × HammerFifoHead)) : List ℕ :=
  (entries.filter fun entry => termFor key entry.2).map Prod.fst

theorem termOffsets_cons
    (key : HammerRterm) (offset : ℕ) (head : HammerFifoHead) (entries : List (ℕ × HammerFifoHead)) :
    termOffsets key ((offset, head) :: entries) =
      if termFor key head then offset :: termOffsets key entries
      else termOffsets key entries := by
  unfold termOffsets
  rw [List.filter_cons]
  split_ifs <;> simp

theorem terms_redoRec (root : RtermTree) (offset : ℕ) (head : HammerFifoHead) (key : HammerRterm) :
    (hammerRecoverRedoRec root offset head).terms key = if termFor key head then
        some (offset :: (root.terms key).getD [])
      else root.terms key := by
  unfold hammerRecoverRedoRec termFor
  cases head.any with
  | pad | dummy | undo _ => simp
  | redo redo =>
    by_cases hterm : redo.IsTerm
    · have hflags : ¬(redo.redoFlags ≠ .termWrite ∧ redo.redoFlags ≠ .termTrunc) := by
        rcases hterm with h | h <;> simp [h]
      simp only [if_neg hflags, hterm, true_and, decide_eq_true_eq]
      generalize hnew : rtermKey redo redo.redoFlags = nrterm
      by_cases hsame : hammerRtermRbCmp nrterm key = 0
      · have hcongr := RtermTree.terms_congr (hammerRtermRbCmp_eq_zero.mp hsame) root
        rw [if_pos hsame, ← hcongr]
        cases hfind : root.find nrterm with
        | some rterm =>
          simp only [RtermTree.terms_setTermList, if_pos hsame]
          rw [← hcongr]
          simp [RtermTree.terms, hfind]
        | none =>
          have hsame' : hammerRtermRbCmp { nrterm with termList := [offset] } key = 0 := hsame
          rw [RtermTree.terms_cons, if_pos hsame']
          simp [RtermTree.terms, hfind]
      · rw [if_neg hsame]
        cases hfind : root.find nrterm with
        | some rterm =>
          simp only [RtermTree.terms_setTermList, if_neg hsame]
        | none =>
          have hsame' : ¬hammerRtermRbCmp { nrterm with termList := [offset] } key = 0 := hsame
          rw [RtermTree.terms_cons, if_neg hsame']
    · have hflags : redo.redoFlags ≠ .termWrite ∧ redo.redoFlags ≠ .termTrunc := by
        simpa [HammerFifoRedo.IsTerm, not_or] using hterm
      simp [hflags, hterm]

variable (entries : List (ℕ × HammerFifoHead))

def collected : RtermTree :=
  entries.foldr (fun entry root =>
    hammerRecoverRedoRec root entry.1 entry.2) []

/-- The tree holds a node for every key with a TERM among `all`, and its list
is the list of the TERMs among `rest`. -/
def Records (root : RtermTree) (all rest : List (ℕ × HammerFifoHead)) : Prop :=
  ∀ key, root.terms key = if termOffsets key all = [] then none
    else some (termOffsets key rest)

theorem records_collected : Records (collected entries) entries entries := by
  induction entries with
  | nil =>
    intro key
    rfl
  | cons entry entries ih =>
    intro key
    obtain ⟨offset, head⟩ := entry
    have hcollected : collected ((offset, head) :: entries) =
          hammerRecoverRedoRec (collected entries) offset head := rfl
    rw [hcollected, terms_redoRec, ih key, termOffsets_cons]
    by_cases hterm : termFor key head = true
    · by_cases hnil : termOffsets key entries = []
      · simp [hterm, hnil]
      · simp [hterm, hnil]
    · simp [hterm]

/-! ## One record of the forward scan -/

/-- The request a record makes, if `all` holds no TERM for it. -/
def executedBy (all : List (ℕ × HammerFifoHead)) (head : HammerFifoHead) : Option HammerFifoRedo :=
  match head.any with
  | .redo redo =>
    if redo.IsRequest ∧ termOffsets (requestKey redo) all = [] then
      some redo
    else none
  | _ => none

theorem redoRun_request (hrecords : Records root all rest) (hany : head.any = .redo redo)
    (hrequest : redo.IsRequest) :
    hammerRecoverRedoRun root offset head = some (root, executedBy all head) := by
  have hterms := hrecords (requestKey redo)
  have hrun : hammerRecoverRedoRun root offset head =
        match root.find (requestKey redo) with
        | some _ => some (root, none)
        | none => some (root, some redo) := by
    unfold hammerRecoverRedoRun
    rw [hany]
    rcases hrequest with h | h <;> simp [h, requestKey]
  rw [hrun]
  unfold executedBy
  rw [hany]
  simp only [RtermTree.terms] at hterms
  by_cases hnil : termOffsets (requestKey redo) all = []
  · have hfind : root.find (requestKey redo) = none := by
      simpa [hnil] using hterms
    simp [hfind, hrequest, hnil]
  · rw [if_neg hnil] at hterms
    obtain ⟨rterm, hfind, _⟩ := Option.map_eq_some_iff.mp hterms
    simp [hfind, hnil]

theorem redoRun_term (hany : head.any = .redo redo) (hterm : redo.IsTerm)
    (hterms : root.terms (rtermKey redo redo.redoFlags) = some (offset :: list)) :
    hammerRecoverRedoRun root offset head =
      some (root.setTermList (rtermKey redo redo.redoFlags) List.tail, none) := by
  obtain ⟨rterm, hfind, hlist⟩ := Option.map_eq_some_iff.mp hterms
  unfold hammerRecoverRedoRun
  rw [hany]
  rcases hterm with h | h <;>
    · simp only [h] at hfind ⊢
      rw [hfind]
      simp [hlist]

theorem redoRun_term_nil (hany : head.any = .redo redo) (hterm : redo.IsTerm)
    (hterms : (root.terms (rtermKey redo redo.redoFlags)).getD [] = []) :
    hammerRecoverRedoRun root offset head = some (root, none) := by
  unfold hammerRecoverRedoRun
  rw [hany]
  unfold RtermTree.terms at hterms
  rcases hterm with h | h <;>
    · simp only [h] at hterms ⊢
      cases hfind : root.find (rtermKey redo _) with
      | none => rfl
      | some rterm =>
        have hlist : rterm.termList = [] := by
          simpa [hfind] using hterms
        simp [hlist]

theorem redoRun_other (hother : ∀ redo, head.any = .redo redo → ¬redo.IsRequest ∧ ¬redo.IsTerm) :
    hammerRecoverRedoRun root offset head = some (root, none) := by
  unfold hammerRecoverRedoRun
  cases hany : head.any with
  | pad | dummy | undo _ => rfl
  | redo redo =>
    obtain ⟨hrequest, hterm⟩ := hother redo hany
    unfold HammerFifoRedo.IsRequest at hrequest
    unfold HammerFifoRedo.IsTerm at hterm
    cases hflags : redo.redoFlags <;> simp_all

theorem executedBy_of_not_request (hother : ∀ redo, head.any = .redo redo → ¬redo.IsRequest) :
    executedBy all head = none := by
  unfold executedBy
  cases hany : head.any with
  | pad | dummy | undo _ => rfl
  | redo redo => simp [hother redo hany]

theorem HammerFifoRedo.IsTerm.not_isRequest (h : redo.IsTerm) : ¬redo.IsRequest := by
  unfold IsRequest
  rcases h with h | h <;> simp [h]

theorem HammerFifoHead.request_term_or_other (head : HammerFifoHead) :
    (∃ redo, head.any = .redo redo ∧ redo.IsRequest) ∨
      (∃ redo, head.any = .redo redo ∧ redo.IsTerm) ∨
      (∀ redo, head.any = .redo redo → ¬redo.IsRequest ∧ ¬redo.IsTerm) := by
  by_cases hrequest : ∃ redo, head.any = .redo redo ∧ redo.IsRequest
  · exact Or.inl hrequest
  · by_cases hterm : ∃ redo, head.any = .redo redo ∧ redo.IsTerm
    · exact Or.inr (Or.inl hterm)
    · refine Or.inr (Or.inr ?_)
      intro redo hany
      exact ⟨fun h => hrequest ⟨redo, hany, h⟩, fun h => hterm ⟨redo, hany, h⟩⟩

theorem termFor_of_not_isTerm
    (hother : ∀ redo, head.any = .redo redo → ¬redo.IsTerm) (key : HammerRterm) :
    termFor key head = false := by
  unfold termFor
  cases hany : head.any with
  | pad | dummy | undo _ => rfl
  | redo redo => simp [hother redo hany]

theorem Records.redoRun_cons (hrecords : Records root all ((offset, head) :: rest))
    (hmem : (offset, head) ∈ all) :
    ∃ root', hammerRecoverRedoRun root offset head = some (root', executedBy all head) ∧
      Records root' all rest := by
  rcases head.request_term_or_other with
    ⟨redo, hany, hrequest⟩ | ⟨redo, hany, hterm⟩ | hother
  · refine ⟨root, redoRun_request hrecords hany hrequest, ?_⟩
    intro key
    have hfor : termFor key head = false := by
      refine termFor_of_not_isTerm ?_ key
      intro redo' hany' hterm'
      rw [hany] at hany'
      cases hany'
      exact hterm'.not_isRequest hrequest
    simpa [termOffsets_cons, hfor] using hrecords key
  · have hself : termFor (rtermKey redo redo.redoFlags) head = true := by
      simp [termFor, hany, hterm, hammerRtermRbCmp_eq_zero, SameRterm]
    have hne (key : HammerRterm) (hfor : termFor key head = true) : termOffsets key all ≠ [] := by
      intro hnil
      have hoffset : offset ∈ termOffsets key all := by
        refine List.mem_map.mpr ⟨(offset, head), ?_, rfl⟩
        exact List.mem_filter.mpr ⟨hmem, hfor⟩
      simp [hnil] at hoffset
    have hterms := hrecords (rtermKey redo redo.redoFlags)
    rw [if_neg (hne _ hself), termOffsets_cons, if_pos hself] at hterms
    refine ⟨root.setTermList (rtermKey redo redo.redoFlags) List.tail, ?_, ?_⟩
    · rw [redoRun_term hany hterm hterms, executedBy_of_not_request]
      intro redo' hany'
      rw [hany] at hany'
      cases hany'
      exact hterm.not_isRequest
    · intro key
      have hkey : termFor key head = true ↔
            hammerRtermRbCmp (rtermKey redo redo.redoFlags) key = 0 := by
        simp [termFor, hany, hterm]
      rw [RtermTree.terms_setTermList, hrecords key, termOffsets_cons]
      by_cases hfor : termFor key head = true
      · simp [hfor, hkey.mp hfor, hne key hfor]
      · simp [hfor, mt hkey.mpr hfor]
  · refine ⟨root, ?_, ?_⟩
    · rw [redoRun_other hother, executedBy_of_not_request]
      exact fun redo hany => (hother redo hany).1
    · intro key
      have hfor := termFor_of_not_isTerm (fun redo hany => (hother redo hany).2) key
      simpa [termOffsets_cons, hfor] using hrecords key

/-- One step of the forward scan inside the nominal range: all recorded TERMs
are consumed by then, and the TERMs found are ignored. -/
theorem Records.redoRun_nominal (hrecords : Records root all []) :
    hammerRecoverRedoRun root offset head = some (root, executedBy all head) := by
  rcases head.request_term_or_other with
    ⟨redo, hany, hrequest⟩ | ⟨redo, hany, hterm⟩ | hother
  · exact redoRun_request hrecords hany hrequest
  · have hnone : executedBy all head = none := by
      refine executedBy_of_not_request ?_
      intro redo' hany'
      rw [hany] at hany'
      cases hany'
      exact hterm.not_isRequest
    rw [hnone]
    refine redoRun_term_nil hany hterm ?_
    rw [hrecords]
    split_ifs <;> rfl
  · rw [redoRun_other hother, executedBy_of_not_request]
    exact fun redo hany => (hother redo hany).1

end DragonFly.Hammer
