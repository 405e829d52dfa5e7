import DragonFly.HammerMirrorRun

/-!
# Transferring a stream in chunks

A chunked transfer is a sequence of stream records and of resumptions at
`key_cur`.  When every PASS record names an element of the target and every REC
record a new one, the position of the tracking cursor depends only on the keys
of the target and the stream.  What becomes of an element is then read off the
list of keys the sweeps pass.
-/

namespace DragonFly.Hammer

open List KeyScan

/-! ## Events -/

inductive MirrorEvent where
  | resume
  | write (record : MirrorRecord)

section

variable (range : MirrorRange)

def MirrorEvent.apply (target : MirrorTarget) : MirrorEvent → Option MirrorTarget
  | .resume =>
    some { target with cursor := hammerBtreeFirst target.tree target.keyCur range.keyEnd }
  | .write record => writeRecord range target record

def applyEvents (events : List MirrorEvent) (target : MirrorTarget) : Option MirrorTarget :=
  events.foldlM (fun target event => event.apply range target) target

def chunkEvents (chunks : List (List MirrorRecord)) : List MirrorEvent :=
  chunks.flatMap fun chunk => .resume :: chunk.map .write

theorem applyEvents_cons (event : MirrorEvent) (events : List MirrorEvent) (target : MirrorTarget) :
    applyEvents range (event :: events) target =
      (event.apply range target).bind (applyEvents range events) :=
  rfl

theorem applyEvents_append (events later : List MirrorEvent) (target : MirrorTarget) :
    applyEvents range (events ++ later) target =
      (applyEvents range events target).bind (applyEvents range later) :=
  foldlM_append

theorem applyEvents_write (records : List MirrorRecord) (target : MirrorTarget) :
    applyEvents range (records.map .write) target = writeRecords range records target := by
  unfold applyEvents writeRecords
  rw [foldlM_map]
  rfl

theorem writeChunks_eq (chunks : List (List MirrorRecord))
    (tree : List HammerBtreeLeafElm) (cursor : TrackingCursor) (keyCur : HammerBaseElm) :
    writeChunks range tree keyCur chunks =
      (applyEvents range (chunkEvents chunks) ⟨tree, cursor, keyCur⟩).map MirrorTarget.tree := by
  induction chunks generalizing tree cursor keyCur with
  | nil => rfl
  | cons chunk chunks ih =>
    have hevents : chunkEvents (chunk :: chunks) =
        .resume :: (chunk.map .write ++ chunkEvents chunks) := rfl
    rw [hevents, applyEvents_cons, MirrorEvent.apply, Option.bind_some, applyEvents_append,
      applyEvents_write, writeChunks, hammerIocMirrorWrite]
    cases writeRecords range chunk
        ⟨tree, hammerBtreeFirst tree keyCur range.keyEnd, keyCur⟩ with
    | none => rfl
    | some target => exact ih target.tree target.cursor target.keyCur

end

/-! ## The position of the sweep -/

/-- The tracking cursor, and what a resumption would put ahead of it. -/
structure SweepPosition where
  scan : KeyScan SortKey
  resume : List SortKey

/-- Where a mirrored record leaves the cursor in a tree with these keys. -/
def MirrorRecord.place (keys : List SortKey) : MirrorRecord → KeyScan SortKey
  | .skip _ skipEnd => KeyScan.seek keys skipEnd.sortKey false
  | .record leaf => ⟨leaf.base.sortKey :: keys.dropWhile (· < leaf.base.sortKey), true⟩
  | .pass leaf => KeyScan.seek keys leaf.base.sortKey true

namespace SweepPosition

def step (keys : List SortKey) (position : SweepPosition) : MirrorEvent → SweepPosition
  | .resume => { position with scan := ⟨position.resume, true⟩ }
  | .write record =>
    if record.mirrored then ⟨record.place keys, (record.place keys).ahead⟩
    else { position with scan := position.scan.toward record.start }

def passed (position : SweepPosition) : MirrorEvent → List SortKey
  | .resume => []
  | .write record => position.scan.passed record.start

def swept (keys : List SortKey) : SweepPosition → List MirrorEvent → List SortKey
  | _, [] => []
  | position, event :: events =>
    position.passed event ++ swept keys (position.step keys event) events

end SweepPosition

def eventRecords (events : List MirrorEvent) : List MirrorRecord :=
  events.filterMap fun
    | .resume => none
    | .write record => some record

@[simp] theorem eventRecords_resume (events : List MirrorEvent) :
    eventRecords (.resume :: events) = eventRecords events := rfl

@[simp] theorem eventRecords_write (record : MirrorRecord) (events : List MirrorEvent) :
    eventRecords (.write record :: events) = record :: eventRecords events := rfl

theorem eventRecords_append (events later : List MirrorEvent) :
    eventRecords (events ++ later) = eventRecords events ++ eventRecords later :=
  filterMap_append

theorem eventRecords_chunkEvents (chunks : List (List MirrorRecord)) :
    eventRecords (chunkEvents chunks) = chunks.flatten := by
  induction chunks with
  | nil => rfl
  | cons chunk chunks ih =>
    have hchunk : eventRecords (chunk.map .write) = chunk := by
      simp [eventRecords, filterMap_map]
    have hevents : chunkEvents (chunk :: chunks) =
        .resume :: (chunk.map .write ++ chunkEvents chunks) := rfl
    rw [hevents, eventRecords_resume, eventRecords_append, hchunk, ih, flatten_cons]

/-! ## A transfer that fits its target -/

/-- PASS records name elements with these keys and REC records new ones. -/
def MirrorRecord.Fits (range : MirrorRange) (keys : List SortKey) : MirrorRecord → Prop
  | .skip _ _ => True
  | .record leaf => hammerMirrorNomirror leaf.base = false →
      leaf.base.sortKey ∉ keys ∧ range.tidBeg ≤ leaf.base.createTid
  | .pass leaf => hammerMirrorNomirror leaf.base = false → leaf.base.sortKey ∈ keys

def MirrorRecord.Sound (record : MirrorRecord) : Prop :=
  ∀ leaf, record.leaf? = some leaf → leaf.base.deleteTid ≠ 0 →
    leaf.base.deleteTid ≠ leaf.base.createTid

structure Stage (range : MirrorRange) (keys : List SortKey) (position : SweepPosition)
    (target : MirrorTarget) (records : List MirrorRecord) : Prop where
  placed : target.Placed
  sorted : keys.Pairwise (· < ·)
  scan : target.scan = position.scan
  resume : position.resume = (treeKeys target.tree).dropWhile (· < target.keyCur.sortKey)
  subset : ∀ key ∈ keys, key ∈ treeKeys target.tree
  created : ∀ key ∈ treeKeys target.tree, key ∉ keys → ∀ record ∈ records, key < record.start
  order : InKeyOrder records
  fits : ∀ record ∈ records, record.Fits range keys
  sound : ∀ record ∈ records, record.Sound

variable {target' : MirrorTarget} {record : MirrorRecord}

theorem Written.keyCur_of_mirrored {range : MirrorRange}
    (hwritten : Written range target record target') (hmirrored : record.mirrored = true) :
    target'.keyCur.sortKey = record.landing := by
  cases hwritten with
  | skip his | passMissing _ _ his | recordOld _ _ _ his | recordCreated _ _ _ his =>
    rw [his.keyCur]; rfl
  | unmirrored hleaf hconfig =>
    rw [MirrorRecord.mirrored_of_leaf hleaf, hconfig] at hmirrored
    cases hmirrored
  | found hleaf _ _ _ _ his => rw [his.keyCur, MirrorRecord.landing_of_leaf hleaf]

section Stage

variable {range : MirrorRange} {keys : List SortKey} {position : SweepPosition}
  {target target' : MirrorTarget} {record : MirrorRecord} {records : List MirrorRecord}

theorem Stage.missing (hstage : Stage range keys position target (.record leaf :: records))
    (hmirror : hammerMirrorNomirror leaf.base = false) :
    leaf.base.sortKey ∉ treeKeys target.tree := by
  intro hmem
  have hnew := (hstage.fits (.record leaf) mem_cons_self hmirror).1
  exact lt_irrefl _ (hstage.created _ hmem hnew (.record leaf) mem_cons_self)

section

variable (hstage : Stage range keys position target (record :: records))
include hstage

theorem Stage.dropWhile_eq (hstop : record.start ≤ stop) :
    (treeKeys target.tree).dropWhile (· < stop) = keys.dropWhile (· < stop) := by
  have hordered := hstage.placed.ordered
  rw [dropWhile_lt_eq_filter _ hordered, dropWhile_lt_eq_filter _ hstage.sorted]
  have hleft : ((treeKeys target.tree).filter (stop ≤ ·)).Pairwise (· < ·) := hordered.filter _
  apply hleft.eq_of_mem_iff (hstage.sorted.filter _)
  intro key
  simp only [mem_filter, decide_eq_true_eq]
  constructor
  · rintro ⟨hmem, hle⟩
    refine ⟨?_, hle⟩
    by_contra hnew
    exact absurd (hstage.created key hmem hnew record mem_cons_self) (not_lt.mpr (hstop.trans hle))
  · exact fun h => ⟨hstage.subset key h.1, h.2⟩

theorem Stage.scan_of_mirrored
    (hwritten : Written range target record target') (hmirrored : record.mirrored = true) :
    target'.scan = record.place keys := by
  have hlanding := hstage.dropWhile_eq (hstage.order.forward record mem_cons_self).start_le
  cases hwritten with
  | skip his =>
    rw [his.scan]
    exact congrArg (KeyScan.mk · false) hlanding
  | unmirrored hleaf hconfig =>
    rw [MirrorRecord.mirrored_of_leaf hleaf, hconfig] at hmirrored
    cases hmirrored
  | @found _ leaf elm _ _ hleaf hmirror helm hkey heaten his =>
    have hmem : leaf.base.sortKey ∈ treeKeys target.tree := by
      rw [← treeKeys_sweptTree range.tidEnd leaf.base.sortKey target]
      exact mem_treeKeys.mpr ⟨elm, helm, hkey⟩
    cases record with
    | skip => cases hleaf
    | record own =>
      rw [← Option.some.inj hleaf] at hmirror hmem
      exact absurd hmem (hstage.missing hmirror)
    | pass own =>
      have hown : own = leaf := Option.some.inj hleaf
      subst hown
      rw [his.scan, heaten]
      exact congrArg (KeyScan.mk · true) hlanding
  | @passMissing leaf _ hmirror hmissing _ =>
    exact absurd (hstage.subset _ (hstage.fits (.pass leaf) mem_cons_self hmirror)) hmissing
  | @recordOld leaf _ hmirror _ hold _ =>
    exact absurd (hstage.fits (.record leaf) mem_cons_self hmirror).2 (not_le.mpr hold)
  | recordCreated _ _ _ his =>
    rw [his.scan]
    exact congrArg (fun ahead => KeyScan.mk (_ :: ahead) true) hlanding

theorem Stage.sound_write :
    ∃ target', writeRecord range target record = some target' ∧
      Written range target record target' := by
  rcases writeRecord_spec range record hstage.placed with h | ⟨-, htrips⟩
  · exact h
  · obtain ⟨leaf, elm, hleaf, -, -, -, hcheck, hsame⟩ := htrips
    simp only [hammerMirrorCheck, decide_eq_true_eq] at hcheck
    exact absurd hsame (hstage.sound record mem_cons_self leaf hleaf hcheck.2)

theorem Stage.write (hwritten : Written range target record target') :
    Stage range keys (position.step keys (.write record)) target' records := by
  have hcreated : ∀ key ∈ treeKeys target'.tree, key ∉ keys →
      ∀ later ∈ records, key < later.start := by
    intro key hmem hnew later hlater
    rcases hwritten.mem_keys_iff.mp hmem with h | hcreates
    · exact hstage.created key h hnew later (mem_cons_of_mem _ hlater)
    · exact MirrorRecord.lt_of_creates hcreates
        ((pairwise_cons.mp hstage.order.pairwise).1 later hlater)
  have hscan : target'.scan = (position.step keys (.write record)).scan ∧
      (position.step keys (.write record)).resume =
        (treeKeys target'.tree).dropWhile (· < target'.keyCur.sortKey) := by
    cases hmirrored : record.mirrored with
    | true =>
      have hplace := hstage.scan_of_mirrored hwritten hmirrored
      simp only [SweepPosition.step, hmirrored, if_true]
      refine ⟨hplace, ?_⟩
      rw [← hplace, hwritten.keyCur_of_mirrored hmirrored,
        hwritten.ahead_of_mirrored hstage.placed hmirrored]
    | false =>
      have his := hwritten.of_unmirrored hmirrored
      simp only [SweepPosition.step, hmirrored]
      refine ⟨by rw [his.scan, hstage.scan]; rfl, ?_⟩
      rw [his.tree, his.keyCur, treeKeys_sweptTree]
      exact hstage.resume
  exact ⟨hwritten.placed, hstage.sorted, hscan.1, hscan.2,
    fun key hkey => hwritten.mem_keys_iff.mpr (.inl (hstage.subset key hkey)), hcreated,
    hstage.order.of_cons, fun later h => hstage.fits later (mem_cons_of_mem _ h),
    fun later h => hstage.sound later (mem_cons_of_mem _ h)⟩

end

theorem Stage.resumed (hstage : Stage range keys position target records) :
    Stage range keys (position.step keys .resume)
      { target with cursor := hammerBtreeFirst target.tree target.keyCur range.keyEnd }
      records := by
  have his := first_is range target.keyCur hstage.placed.ordered
  refine ⟨his.placed, hstage.sorted, ?_, hstage.resume, hstage.subset, hstage.created,
    hstage.order, hstage.fits, hstage.sound⟩
  rw [his.scan, SweepPosition.step, hstage.resume]
  rfl

end Stage

/-! ## What becomes of an element -/

section Fate

variable {range : MirrorRange} {keys : List SortKey} {position : SweepPosition}
  {target final : MirrorTarget} {events : List MirrorEvent}

theorem Stage.run (hstage : Stage range keys position target (eventRecords events)) :
    ∃ final, applyEvents range events target = some final := by
  induction events generalizing position target with
  | nil => exact ⟨target, rfl⟩
  | cons event events ih =>
    rw [applyEvents_cons]
    cases event with
    | resume => exact ih hstage.resumed
    | write record =>
      obtain ⟨target', hwrite, hwritten⟩ := hstage.sound_write
      rw [MirrorEvent.apply, hwrite]
      exact ih (hstage.write hwritten)

theorem Written.mem_of_unnamed (hwritten : Written range target record target')
    (hmem : elm ∈ target.tree)
    (hother : record.mirrored = true → record.leaf?.map (·.base.sortKey) ≠ some elm.base.sortKey) :
    (if elm.base.sortKey ∈ target.scan.passed record.start then markDeleted range.tidEnd elm
      else elm) ∈ target'.tree := by
  have hswept : (if elm.base.sortKey ∈ target.scan.passed record.start then
      markDeleted range.tidEnd elm else elm) ∈ sweptTree range.tidEnd record.start target :=
    mem_editKeys.mpr ⟨elm, hmem, rfl⟩
  rcases hwritten.tree_cases with htree | ⟨leaf, hleaf, hmirror, htree⟩ | ⟨leaf, -, -, -, -, htree⟩
  · rwa [htree]
  · rw [htree]
    refine mem_editKeys.mpr ⟨_, hswept, if_neg ?_⟩
    rw [mem_singleton]
    intro hsame
    have hmirrored : record.mirrored = true := by
      rw [MirrorRecord.mirrored_of_leaf hleaf, hmirror]
      rfl
    apply hother hmirrored
    rw [hleaf, Option.map_some, ← hsame]
    split_ifs <;> simp
  · rw [htree]
    exact mem_insertLeaf.mpr (.inr hswept)

theorem exists_write_of_run
    (hrun : applyEvents range (.write record :: events) target = some final) :
    ∃ target', writeRecord range target record = some target' ∧
      applyEvents range events target' = some final := by
  rw [applyEvents_cons] at hrun
  exact Option.bind_eq_some_iff.mp hrun

section

variable (hstage : Stage range keys position target (eventRecords events))
include hstage

variable (hrun : applyEvents range events target = some final)
include hrun

theorem Stage.fate (hmem : elm ∈ target.tree)
    (hunnamed : ∀ record ∈ eventRecords events, record.mirrored = true →
      record.leaf?.map (·.base.sortKey) ≠ some elm.base.sortKey) :
    (if elm.base.sortKey ∈ position.swept keys events then markDeleted range.tidEnd elm
      else elm) ∈ final.tree := by
  induction events generalizing position target elm with
  | nil =>
    rw [← Option.some.inj hrun]
    simpa [SweepPosition.swept] using hmem
  | cons event events ih =>
    cases event with
    | resume => exact ih hstage.resumed hrun hmem hunnamed
    | write record =>
      obtain ⟨target', hwrite, hrest⟩ := exists_write_of_run hrun
      have hwritten := writeRecord_written hstage.placed hwrite
      have hstep := hwritten.mem_of_unnamed hmem (hunnamed record mem_cons_self)
      have hpassed : position.passed (.write record) = target.scan.passed record.start := by
        rw [hstage.scan]
        rfl
      simp only [SweepPosition.swept, mem_append, hpassed]
      have hlater : ∀ later ∈ eventRecords events, later.mirrored = true →
          later.leaf?.map (·.base.sortKey) ≠ some elm.base.sortKey :=
        fun later h => hunnamed later (mem_cons_of_mem _ h)
      by_cases hhere : elm.base.sortKey ∈ target.scan.passed record.start
      · rw [if_pos hhere] at hstep
        have hlast := ih (hstage.write hwritten) hrest hstep
          (by rw [markDeleted_sortKey]; exact hlater)
        rw [markDeleted_markDeleted, ite_self] at hlast
        rw [if_pos (.inl hhere)]
        exact hlast
      · rw [if_neg hhere] at hstep
        have hlast := ih (hstage.write hwritten) hrest hstep hlater
        simpa only [hhere, false_or] using hlast

theorem Stage.mem_keys_iff :
    key ∈ treeKeys final.tree ↔ key ∈ treeKeys target.tree ∨ ∃ record ∈ eventRecords events,
        record.creates range = some key := by
  induction events generalizing position target with
  | nil =>
    rw [← Option.some.inj hrun]
    simp [eventRecords]
  | cons event events ih =>
    cases event with
    | resume =>
      have hresumed := ih hstage.resumed hrun
      exact hresumed
    | write record =>
      obtain ⟨target', hwrite, hrest⟩ := exists_write_of_run hrun
      have hwritten := writeRecord_written hstage.placed hwrite
      rw [ih (hstage.write hwritten) hrest, hwritten.mem_keys_iff]
      simp [or_assoc]

end

end Fate

namespace SweepPosition

variable {keys : List SortKey} {position : SweepPosition} {events : List MirrorEvent}
  {key : SortKey}

theorem exists_start_of_mem_swept (hmem : key ∈ position.swept keys events) :
    ∃ record ∈ eventRecords events, key < record.start := by
  induction events generalizing position with
  | nil => cases hmem
  | cons event events ih =>
    rw [swept, mem_append] at hmem
    rcases hmem with hhere | hlater
    · cases event with
      | resume => cases hhere
      | write record => exact ⟨record, mem_cons_self, lt_of_mem_passed hhere⟩
    · obtain ⟨record, hrecord, hlt⟩ := ih hlater
      cases event with
      | resume => exact ⟨record, hrecord, hlt⟩
      | write => exact ⟨record, mem_cons_of_mem _ hrecord, hlt⟩

theorem landing_le_of_mem_place
    (hsorted : keys.Pairwise (· < ·)) (hmem : key ∈ (record.place keys).ahead) :
    record.landing ≤ key := by
  cases record with
  | skip skipBeg skipEnd | pass leaf => exact ((mem_seek_ahead hsorted).mp hmem).2
  | record leaf =>
    rcases mem_cons.mp hmem with rfl | h
    · exact le_rfl
    · rw [dropWhile_lt_eq_filter _ hsorted] at h
      exact of_decide_eq_true (mem_filter.mp h).2

theorem not_mem_swept (hsorted : keys.Pairwise (· < ·)) (hscan : key ∉ position.scan.next)
    (hresume : key ∉ position.resume.tail)
    (hlater : ∀ record ∈ eventRecords events, key < record.start ∧ record.Forward) :
    key ∉ position.swept keys events := by
  induction events generalizing position with
  | nil => simp [swept]
  | cons event events ih =>
    rw [swept, mem_append]
    rintro (hhere | hrest)
    · cases event with
      | resume => cases hhere
      | write record => exact hscan ((takeWhile_sublist _).mem hhere)
    · revert hrest
      cases event with
      | resume => exact ih hresume hresume hlater
      | write record =>
        obtain ⟨hlt, hforward⟩ := hlater record mem_cons_self
        have hnext := fun later h => hlater later (mem_cons_of_mem record h)
        by_cases hmirrored : record.mirrored = true
        · have hplace : key ∉ (record.place keys).ahead := fun hmem =>
            absurd (hlt.trans_le hforward.start_le)
              (not_lt.mpr (landing_le_of_mem_place hsorted hmem))
          apply ih _ _ hnext
          · simp only [step, if_pos hmirrored]
            exact fun h => hplace ((next_sublist _).mem h)
          · simp only [step, if_pos hmirrored]
            exact fun h => hplace ((tail_sublist _).mem h)
        · apply ih _ _ hnext
          · simp only [step, if_neg hmirrored]
            intro h
            exact hscan ((dropWhile_sublist _).mem ((next_sublist _).mem h))
          · simp only [step, if_neg hmirrored]
            exact hresume

end SweepPosition

/-! ## The element a record names -/

section Named

variable {range : MirrorRange} {keys : List SortKey} {position : SweepPosition}
  {target target' middle final : MirrorTarget} {events later : List MirrorEvent}
  {record : MirrorRecord} {records rest : List MirrorRecord} {leaf elm : HammerBtreeLeafElm}

theorem Stage.of_append (hstage : Stage range keys position target (records ++ rest)) :
    Stage range keys position target records :=
  ⟨hstage.placed, hstage.sorted, hstage.scan, hstage.resume, hstage.subset,
    fun key hmem hnew own hown => hstage.created key hmem hnew own (mem_append_left _ hown),
    ⟨(pairwise_append.mp hstage.order.pairwise).1,
      fun own hown => hstage.order.forward own (mem_append_left _ hown)⟩,
    fun own hown => hstage.fits own (mem_append_left _ hown),
    fun own hown => hstage.sound own (mem_append_left _ hown)⟩

theorem Stage.advance (hstage : Stage range keys position target (eventRecords (events ++ later)))
    (hrun : applyEvents range events target = some middle) :
    ∃ position', Stage range keys position' middle (eventRecords later) := by
  induction events generalizing position target with
  | nil =>
    rw [← Option.some.inj hrun]
    exact ⟨position, hstage⟩
  | cons event events ih =>
    cases event with
    | resume => exact ih hstage.resumed hrun
    | write record =>
      obtain ⟨target', hwrite, hrest⟩ := exists_write_of_run hrun
      exact ih (hstage.write (writeRecord_written hstage.placed hwrite)) hrest

theorem Stage.final_placed (hstage : Stage range keys position target (eventRecords events))
    (hrun : applyEvents range events target = some final) : final.Placed := by
  rw [← append_nil events] at hstage
  obtain ⟨_, hfinal⟩ := hstage.advance hrun
  exact hfinal.placed

theorem not_mem_place_tail (hsorted : keys.Pairwise (· < ·)) (hfits : record.Fits range keys)
    (hleaf : record.leaf? = some leaf) (hmirror : hammerMirrorNomirror leaf.base = false) :
    leaf.base.sortKey ∉ (record.place keys).ahead.tail ∧ (record.place keys).eaten = true := by
  cases record with
  | skip => cases hleaf
  | record own =>
    rw [← Option.some.inj hleaf] at hmirror ⊢
    refine ⟨fun hmem => ?_, rfl⟩
    exact (hfits hmirror).1 ((dropWhile_sublist _).mem hmem)
  | pass own =>
    rw [← Option.some.inj hleaf] at hmirror ⊢
    refine ⟨fun hmem => ?_, rfl⟩
    obtain ⟨rest, hrest⟩ := dropWhile_eq_cons hsorted (hfits hmirror)
    have hcons : (own.base.sortKey :: rest).Pairwise (· < ·) := by
      rw [← hrest]
      exact hsorted.sublist (dropWhile_sublist _)
    simp only [MirrorRecord.place, seek, hrest, tail_cons] at hmem
    exact lt_irrefl _ ((pairwise_cons.mp hcons).1 _ hmem)

theorem Stage.named_kept (hstage : Stage range keys position target (record :: eventRecords later))
    (hwritten : Written range target record target') (hleaf : record.leaf? = some leaf)
    (hmirror : hammerMirrorNomirror leaf.base = false) (hmem : elm ∈ target'.tree)
    (hkey : elm.base.sortKey = leaf.base.sortKey)
    (hrun : applyEvents range later target' = some final) : elm ∈ final.tree := by
  have hbehind : ∀ next ∈ eventRecords later, leaf.base.sortKey < next.start := fun next hnext =>
    ((pairwise_cons.mp hstage.order.pairwise).1 next hnext).leaf_lt hleaf
  have hmirrored : record.mirrored = true := by
    rw [MirrorRecord.mirrored_of_leaf hleaf, hmirror]
    rfl
  obtain ⟨htail, heaten⟩ := not_mem_place_tail hstage.sorted
    (hstage.fits record mem_cons_self) hleaf hmirror
  have hfate := (hstage.write hwritten).fate hrun hmem (by
    intro next hnext _ hsame
    obtain ⟨own, hown, hownkey⟩ := Option.map_eq_some_iff.mp hsame
    have hlt := hbehind next hnext
    rw [MirrorRecord.start_of_leaf hown, hownkey, hkey] at hlt
    exact lt_irrefl _ hlt)
  have hnot : elm.base.sortKey ∉ (position.step keys (.write record)).swept keys later := by
    rw [hkey]
    apply SweepPosition.not_mem_swept hstage.sorted
    · simpa only [SweepPosition.step, if_pos hmirrored, KeyScan.next, heaten, if_true] using htail
    · simpa only [SweepPosition.step, if_pos hmirrored] using htail
    · exact fun next hnext => ⟨hbehind next hnext,
        hstage.order.forward next (mem_cons_of_mem _ hnext)⟩
  rwa [if_neg hnot] at hfate

theorem Stage.before_named (hstage : Stage range keys position target
      (eventRecords (events ++ .write record :: later)))
    (hrun : applyEvents range events target = some middle) (hleaf : record.leaf? = some leaf)
    (hmem : elm ∈ target.tree) (hkey : elm.base.sortKey = leaf.base.sortKey) :
    elm ∈ middle.tree := by
  rw [eventRecords_append] at hstage
  have hcross := (pairwise_append.mp hstage.order.pairwise).2.2
  have hbefore : ∀ own ∈ eventRecords events, own.start ≤ leaf.base.sortKey := by
    intro own hown
    have hle := (hcross own hown record mem_cons_self).start_le
      (hstage.order.forward own (mem_append_left _ hown))
    rwa [MirrorRecord.start_of_leaf hleaf] at hle
  have hfate := hstage.of_append.fate hrun hmem (by
    intro own hown _ hsame
    obtain ⟨other, hother, hotherkey⟩ := Option.map_eq_some_iff.mp hsame
    have hlt := (hcross own hown record mem_cons_self).leaf_lt hother
    rw [MirrorRecord.start_of_leaf hleaf, hotherkey, hkey] at hlt
    exact lt_irrefl _ hlt)
  have hnot : elm.base.sortKey ∉ position.swept keys events := by
    intro hswept
    obtain ⟨own, hown, hlt⟩ := SweepPosition.exists_start_of_mem_swept hswept
    exact absurd (hbefore own hown) (not_le.mpr (hkey ▸ hlt))
  rwa [if_neg hnot] at hfate

theorem exists_split_of_mem (hmem : record ∈ eventRecords events) :
    ∃ before after, events = before ++ .write record :: after := by
  obtain ⟨event, hevent, hwrite⟩ := mem_filterMap.mp hmem
  cases event with
  | resume => cases hwrite
  | write own =>
    rw [← Option.some.inj hwrite]
    exact append_of_mem hevent

section

variable (hstage : Stage range keys position target (eventRecords events))
  (hrun : applyEvents range events target = some final)
include hstage hrun

theorem Stage.pass_final
    (hrecord : .pass leaf ∈ eventRecords events) (hmirror : hammerMirrorNomirror leaf.base = false)
    (hmem : elm ∈ target.tree) (hkey : elm.base.sortKey = leaf.base.sortKey) :
    settleDeleteTid leaf elm ∈ final.tree := by
  obtain ⟨before, after, rfl⟩ := exists_split_of_mem hrecord
  rw [applyEvents_append] at hrun
  obtain ⟨middle, hbefore, hafter⟩ := Option.bind_eq_some_iff.mp hrun
  obtain ⟨passed, hwrite, hrest⟩ := exists_write_of_run hafter
  have hmiddle := hstage.before_named hbefore rfl hmem hkey
  obtain ⟨position', hstage'⟩ := hstage.advance hbefore
  have hwritten := writeRecord_written hstage'.placed hwrite
  have hnotpassed : elm.base.sortKey ∉ middle.scan.passed leaf.base.sortKey :=
    fun h => absurd (lt_of_mem_passed h) (by rw [hkey]; exact lt_irrefl _)
  apply hstage'.named_kept hwritten rfl hmirror _ (by rw [settleDeleteTid_sortKey, hkey]) hrest
  cases hwritten with
  | unmirrored hleaf hconfig =>
    cases hleaf
    cases hmirror.symm.trans hconfig
  | found hleaf _ _ _ _ his =>
    rw [his.tree, ← Option.some.inj hleaf]
    refine mem_editKeys.mpr ⟨elm, mem_editKeys.mpr ⟨elm, hmiddle, if_neg hnotpassed⟩, ?_⟩
    exact if_pos (mem_singleton.mpr hkey)
  | passMissing _ hmissing _ =>
    exact absurd (mem_treeKeys.mpr ⟨elm, hmiddle, hkey⟩) hmissing

theorem Stage.record_final
    (hrecord : .record leaf ∈ eventRecords events)
    (hmirror : hammerMirrorNomirror leaf.base = false) : leaf ∈ final.tree := by
  obtain ⟨before, after, rfl⟩ := exists_split_of_mem hrecord
  rw [applyEvents_append] at hrun
  obtain ⟨middle, hbefore, hafter⟩ := Option.bind_eq_some_iff.mp hrun
  obtain ⟨created, hwrite, hrest⟩ := exists_write_of_run hafter
  obtain ⟨position', hstage'⟩ := hstage.advance hbefore
  have hwritten := writeRecord_written hstage'.placed hwrite
  have hmissing := hstage'.missing hmirror
  apply hstage'.named_kept hwritten rfl hmirror _ rfl hrest
  cases hwritten with
  | unmirrored hleaf hconfig =>
    cases hleaf
    cases hmirror.symm.trans hconfig
  | found hleaf _ helm hkey =>
    rw [← Option.some.inj hleaf] at helm hkey
    rw [← treeKeys_sweptTree range.tidEnd leaf.base.sortKey middle] at hmissing
    exact absurd (mem_treeKeys.mpr ⟨_, helm, hkey⟩) hmissing
  | recordOld _ _ hold =>
    exact absurd (hstage'.fits (.record leaf) mem_cons_self hmirror).2 (not_le.mpr hold)
  | recordCreated _ _ _ his =>
    rw [his.tree]
    exact mem_insertLeaf.mpr (.inl rfl)

end

end Named

end DragonFly.Hammer
