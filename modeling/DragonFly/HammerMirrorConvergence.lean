import DragonFly.HammerMirrorTransfer

/-!
# Convergence of a mirror transfer

A complete transfer makes the target show the records the master shows as of
`tid_end`, except for target records that the master no longer has.  These are
deleted only if a sweep passes them.  No sweep passes what lies after the last
stream record, the first element at the position where a chunk starts, and the
element the cursor stands on after a configuration record.
-/

namespace DragonFly.Hammer

open List Option MirrorRecord

def VisibleAsOf (tid : ℕ) (elm : HammerBtreeLeafElm) : Prop :=
  elm.base.createTid ≤ tid ∧ (elm.base.deleteTid = 0 ∨ tid < elm.base.deleteTid)

namespace MirrorScanItem

def elements : MirrorScanItem → List HammerBtreeLeafElm
  | .element leaf => [leaf]
  | .filtered _ _ covered => covered

def start : MirrorScanItem → SortKey
  | .element leaf => leaf.base.sortKey
  | .filtered skipBeg _ _ => skipBeg.sortKey

def Precedes (item later : MirrorScanItem) : Prop :=
  match item with
  | .element leaf => leaf.base.sortKey < later.start
  | .filtered _ skipEnd _ => skipEnd.sortKey ≤ later.start

def Covers (key : SortKey) : MirrorScanItem → Prop
  | .element _ => False
  | .filtered skipBeg skipEnd _ => skipBeg.sortKey ≤ key ∧ key < skipEnd.sortKey

end MirrorScanItem

/-- The master as the mirror-filtered scan goes over it. -/
def scanElements (scan : List MirrorScanItem) : List HammerBtreeLeafElm :=
  scan.flatMap MirrorScanItem.elements

/-- What the scan of a master and a target that was mirrored up to `tid_beg` satisfy. -/
structure MirroredUpTo (range : MirrorRange) (scan : List MirrorScanItem)
    (slave : List HammerBtreeLeafElm) : Prop where
  tids : range.tidBeg ≤ range.tidEnd
  scanOrder : scan.Pairwise MirrorScanItem.Precedes
  filtered : ∀ skipBeg skipEnd covered, .filtered skipBeg skipEnd covered ∈ scan →
    skipBeg.sortKey ≤ skipEnd.sortKey ∧ ∀ elm ∈ covered,
      skipBeg.sortKey ≤ elm.base.sortKey ∧ elm.base.sortKey < skipEnd.sortKey ∧
      elm.base.createTid < range.tidBeg ∧ elm.base.deleteTid < range.tidBeg
  masterTids : ∀ elm ∈ scanElements scan, elm.base.deleteTid ≠ 0 →
    elm.base.deleteTid ≠ elm.base.createTid
  slaveOrder : TreeOrdered slave
  slaveTids : ∀ elm ∈ slave, elm.base.createTid < range.tidBeg
  agree : ∀ elm ∈ scanElements scan, elm.base.createTid < range.tidBeg →
    ∃ copy ∈ slave, copy.base.sortKey = elm.base.sortKey ∧ copy.data = elm.data ∧
      (elm.base.deleteTid < range.tidBeg → copy.base.deleteTid = elm.base.deleteTid)

section

variable (range : MirrorRange)

/-- The target shows the master's records as of `tid_end`. -/
def Converged (scan : List MirrorScanItem) (slave : List HammerBtreeLeafElm) : Prop :=
  ∀ base : HammerBaseElm, base.recType ≠ hammerRectypeConfig →
    (∀ item ∈ scan, ¬item.Covers base.sortKey) →
    ∀ data, (∃ elm ∈ slave, elm.base.sortKey = base.sortKey ∧ elm.data = data ∧
        VisibleAsOf range.tidEnd elm) ↔
      ∃ elm ∈ scanElements scan, elm.base.sortKey = base.sortKey ∧ elm.data = data ∧
        VisibleAsOf range.tidEnd elm

/-- The keys of the target that the sweeps of a chunked transfer pass. -/
def transferSwept (slave : List HammerBtreeLeafElm) (keyBeg : HammerBaseElm)
    (chunks : List (List MirrorRecord)) : List SortKey :=
  SweepPosition.swept (treeKeys slave)
    ⟨⟨treeKeys slave, false⟩, (treeKeys slave).dropWhile (· < keyBeg.sortKey)⟩
    (chunkEvents chunks)

/-- Every visible record that the master no longer has is live and passed by a sweep. -/
def DestroyedSwept (scan : List MirrorScanItem)
    (slave : List HammerBtreeLeafElm) (keyBeg : HammerBaseElm)
    (chunks : List (List MirrorRecord)) : Prop :=
  ∀ elm ∈ slave, elm.base.recType ≠ hammerRectypeConfig →
    (∀ item ∈ scan, ¬item.Covers elm.base.sortKey) →
    (∀ kept ∈ scanElements scan, kept.base.sortKey ≠ elm.base.sortKey) →
    VisibleAsOf range.tidEnd elm →
    elm.base.deleteTid = 0 ∧ elm.base.sortKey ∈ transferSwept slave keyBeg chunks

/-! ## The stream of a scan -/

variable (leaf : HammerBtreeLeafElm)

/-- A REC record does not carry a deletion after `tid_end`. -/
def clipDeleteTid : HammerBtreeLeafElm :=
  if leaf.base.deleteTid > range.tidEnd then leaf.withDeleteTid 0 else leaf

@[simp] theorem clipDeleteTid_sortKey :
    (clipDeleteTid range leaf).base.sortKey = leaf.base.sortKey := by
  unfold clipDeleteTid
  split_ifs <;> rfl

@[simp] theorem clipDeleteTid_data : (clipDeleteTid range leaf).data = leaf.data := by
  unfold clipDeleteTid
  split_ifs <;> rfl

theorem visibleAsOf_clipDeleteTid :
    VisibleAsOf range.tidEnd (clipDeleteTid range leaf) ↔ VisibleAsOf range.tidEnd leaf := by
  unfold VisibleAsOf clipDeleteTid
  split_ifs with h
  · have hlater : range.tidEnd < leaf.base.deleteTid := h
    simp [HammerBtreeLeafElm.withDeleteTid, hlater]
  · rfl

end

inductive ReadAs (range : MirrorRange) : MirrorScanItem → MirrorRecord → Prop
  | skip :
      ReadAs range (.filtered skipBeg skipEnd covered) (.skip skipBeg skipEnd)
  | pass (hold : leaf.base.createTid < range.tidBeg) :
      ReadAs range (.element leaf) (.pass leaf)
  | record (hrecent : range.tidBeg ≤ leaf.base.createTid) :
      ReadAs range (.element leaf) (.record (clipDeleteTid range leaf))

variable {record : MirrorRecord} {item : MirrorScanItem}

variable {range : MirrorRange}

theorem readAs_of_readItem (hread : readItem range item = some record) :
    ReadAs range item record := by
  cases item with
  | filtered skipBeg skipEnd covered =>
    rw [← some.inj hread]
    exact .skip
  | element leaf =>
    simp only [readItem] at hread
    split_ifs at hread with hlate hold hdelete
    · rw [← some.inj hread]
      exact .pass hold
    · rw [← some.inj hread]
      have hclip : clipDeleteTid range leaf = leaf.withDeleteTid 0 := if_pos hdelete
      have hrecord := @ReadAs.record range leaf (not_lt.mp hold)
      rw [hclip] at hrecord
      exact hrecord
    · rw [← some.inj hread]
      have hclip : clipDeleteTid range leaf = leaf := if_neg hdelete
      have hrecord := @ReadAs.record range leaf (not_lt.mp hold)
      rw [hclip] at hrecord
      exact hrecord

theorem readItem_element (hcreate : leaf.base.createTid ≤ range.tidEnd) :
    ∃ record, readItem range (.element leaf) = some record := by
  simp only [readItem, if_neg (not_lt.mpr hcreate)]
  split_ifs
  · exact ⟨_, rfl⟩
  · exact ⟨_, rfl⟩
  · exact ⟨_, rfl⟩

theorem ReadAs.start_eq (hread : ReadAs range item record) : record.start = item.start := by
  cases hread with
  | skip | pass => rfl
  | record => exact clipDeleteTid_sortKey range _

theorem ReadAs.precedes {next : MirrorRecord} (hread : ReadAs range item record)
    (hnext : ReadAs range later next) (hprecedes : item.Precedes later) : record.Precedes next := by
  have hstart := hnext.start_eq
  cases hread with
  | skip | pass =>
    simp only [MirrorRecord.Precedes, hstart]
    exact hprecedes
  | record =>
    simp only [MirrorRecord.Precedes, hstart, clipDeleteTid_sortKey]
    exact hprecedes

theorem mem_mirrorRead :
    record ∈ hammerIocMirrorRead range scan ↔ ∃ item ∈ scan, readItem range item = some record :=
  mem_filterMap

section Stream

variable {range : MirrorRange} {scan : List MirrorScanItem} {slave : List HammerBtreeLeafElm}

theorem mirrorRead_inKeyOrder (hjob : MirroredUpTo range scan slave) :
    InKeyOrder (hammerIocMirrorRead range scan) := by
  refine ⟨?_, ?_⟩
  · apply List.Pairwise.filterMap (readItem range) _ hjob.scanOrder
    intro item later hprecedes record hrecord next hnext
    exact (readAs_of_readItem hrecord).precedes (readAs_of_readItem hnext) hprecedes
  · intro record hmem
    obtain ⟨item, hitem, hread⟩ := mem_mirrorRead.mp hmem
    cases readAs_of_readItem hread with
    | skip => exact (hjob.filtered _ _ _ hitem).1
    | pass | record => trivial

theorem mem_scanElements (hmem : .element leaf ∈ scan) : leaf ∈ scanElements scan :=
  mem_flatMap.mpr ⟨_, hmem, mem_singleton_self _⟩

theorem mirrorRead_fits (hjob : MirroredUpTo range scan slave)
    (hmem : record ∈ hammerIocMirrorRead range scan) :
    record.Fits range (treeKeys slave) ∧ record.Sound := by
  obtain ⟨item, hitem, hread⟩ := mem_mirrorRead.mp hmem
  cases readAs_of_readItem hread with
  | skip => exact ⟨trivial, fun leaf hleaf => absurd hleaf (by simp [leaf?])⟩
  | @pass leaf hold =>
    have helm := mem_scanElements hitem
    refine ⟨fun _ => ?_, ?_⟩
    · obtain ⟨copy, hcopy, hkey, -⟩ := hjob.agree leaf helm hold
      exact mem_treeKeys.mpr ⟨copy, hcopy, hkey⟩
    · intro own hown
      rw [← some.inj hown]
      exact hjob.masterTids leaf helm
  | @record leaf hrecent =>
    have hcreate : (clipDeleteTid range leaf).base.createTid = leaf.base.createTid :=
      ((sortKey_eq_iff _ _).mp (clipDeleteTid_sortKey range leaf)).2.2.2.2
    refine ⟨fun _ => ⟨?_, hcreate ▸ hrecent⟩, ?_⟩
    · rw [clipDeleteTid_sortKey]
      intro hkey
      obtain ⟨elm, helm, hsame⟩ := mem_treeKeys.mp hkey
      have htid := ((sortKey_eq_iff _ _).mp hsame).2.2.2.2
      exact absurd (hjob.slaveTids elm helm) (not_lt.mpr (htid ▸ hrecent))
    · intro own hown
      rw [← some.inj hown, hcreate]
      unfold clipDeleteTid
      split_ifs
      · exact fun hzero => absurd rfl hzero
      · exact hjob.masterTids leaf (mem_scanElements hitem)

end Stream

/-! ## What the target shows after the transfer -/

section Transfer

variable {range : MirrorRange} {scan : List MirrorScanItem} {slave : List HammerBtreeLeafElm}
  {keyBeg : HammerBaseElm} {chunks : List (List MirrorRecord)} {final : MirrorTarget}

theorem stage_first (keyBeg : HammerBaseElm) (hjob : MirroredUpTo range scan slave)
    (hchunks : chunks.flatten = hammerIocMirrorRead range scan) :
    Stage range (treeKeys slave)
      ⟨⟨treeKeys slave, false⟩, (treeKeys slave).dropWhile (· < keyBeg.sortKey)⟩
      ⟨slave, ⟨0, false⟩, keyBeg⟩ (eventRecords (chunkEvents chunks)) := by
  rw [eventRecords_chunkEvents, hchunks]
  exact ⟨⟨hjob.slaveOrder, Nat.zero_le _⟩, hjob.slaveOrder, rfl, rfl, fun _ h => h,
    fun key hmem hnew => absurd hmem hnew, mirrorRead_inKeyOrder hjob,
    fun record h => (mirrorRead_fits hjob h).1, fun record h => (mirrorRead_fits hjob h).2⟩

variable {elm : HammerBtreeLeafElm} {key : SortKey}

theorem element_of_key
    (hjob : MirroredUpTo range scan slave) (houtside : ∀ item ∈ scan, ¬item.Covers key)
    (hmem : elm ∈ scanElements scan) (hkey : elm.base.sortKey = key) : .element elm ∈ scan := by
  obtain ⟨item, hitem, helm⟩ := mem_flatMap.mp hmem
  cases item with
  | element leaf => rwa [mem_singleton.mp helm]
  | filtered skipBeg skipEnd covered =>
    obtain ⟨hbeg, hend, -⟩ := (hjob.filtered _ _ _ hitem).2 elm helm
    exact absurd ⟨hkey ▸ hbeg, hkey ▸ hend⟩ (houtside _ hitem)

theorem element_unique (hjob : MirroredUpTo range scan slave) (helm : .element elm ∈ scan)
    (hother : .element other ∈ scan) (hkey : elm.base.sortKey = other.base.sortKey) :
    elm = other := by
  by_contra hne
  have hitems : MirrorScanItem.element elm ≠ .element other :=
    fun h => hne (MirrorScanItem.element.inj h)
  have hsymm : Std.Symm fun item later : MirrorScanItem =>
      item.Precedes later ∨ later.Precedes item :=
    ⟨fun _ _ => Or.symm⟩
  have horder : scan.Pairwise fun item later => item.Precedes later ∨ later.Precedes item :=
    hjob.scanOrder.imp Or.inl
  rcases horder.forall helm hother hitems with h | h
  · exact absurd hkey (ne_of_lt h)
  · exact absurd hkey.symm (ne_of_lt h)

theorem nomirror_of_key {base : HammerBaseElm} (hkey : elm.base.sortKey = base.sortKey)
    (hrecType : base.recType ≠ hammerRectypeConfig) : hammerMirrorNomirror elm.base = false := by
  have htype := ((sortKey_eq_iff _ _).mp hkey).2.2.1
  simpa [hammerMirrorNomirror, htype] using hrecType

theorem exists_element_of_named (hmem : record ∈ hammerIocMirrorRead range scan)
    (hnamed : record.leaf?.map (·.base.sortKey) = some key) :
    ∃ elm, .element elm ∈ scan ∧ elm.base.sortKey = key ∧ elm.base.createTid ≤ range.tidEnd := by
  obtain ⟨item, hitem, hread⟩ := mem_mirrorRead.mp hmem
  have hcreate : ∀ leaf, item = .element leaf → leaf.base.createTid ≤ range.tidEnd := by
    rintro leaf rfl
    by_contra hlate
    simp only [readItem, if_pos (not_le.mp hlate)] at hread
    cases hread
  cases readAs_of_readItem hread with
  | skip => cases hnamed
  | @pass leaf => exact ⟨leaf, hitem, some.inj hnamed, hcreate leaf rfl⟩
  | @record leaf =>
    refine ⟨leaf, hitem, ?_, hcreate leaf rfl⟩
    rw [← clipDeleteTid_sortKey range leaf]
    exact some.inj hnamed

theorem MirrorRecord.named_of_creates (hcreates : record.creates range = some key) :
    record.leaf?.map (·.base.sortKey) = some key := by
  obtain ⟨leaf, rfl, -, -, rfl⟩ := creates_eq_some hcreates
  rfl

section

variable (hjob : MirroredUpTo range scan slave)
include hjob

variable (hchunks : chunks.flatten = hammerIocMirrorRead range scan)
include hchunks

variable (hrun : applyEvents range (chunkEvents chunks) ⟨slave, ⟨0, false⟩, keyBeg⟩ = some final)
include hrun

theorem mem_final_keys (hmem : key ∈ treeKeys final.tree) :
    key ∈ treeKeys slave ∨ ∃ elm, .element elm ∈ scan ∧ elm.base.sortKey = key ∧
      elm.base.createTid ≤ range.tidEnd := by
  rcases ((stage_first keyBeg hjob hchunks).mem_keys_iff hrun).mp hmem with
    h | ⟨record, hrecord, hcreates⟩
  · exact .inl h
  · rw [eventRecords_chunkEvents, hchunks] at hrecord
    exact .inr (exists_element_of_named hrecord (named_of_creates hcreates))

theorem exists_copy (hmem : .element elm ∈ scan) (hmirror : hammerMirrorNomirror elm.base = false)
    (hcreate : elm.base.createTid ≤ range.tidEnd) :
    ∃ copy ∈ final.tree, copy.base.sortKey = elm.base.sortKey ∧ copy.data = elm.data ∧
      (VisibleAsOf range.tidEnd copy ↔ VisibleAsOf range.tidEnd elm) := by
  have hstage := stage_first keyBeg hjob hchunks
  obtain ⟨record, hread⟩ := readItem_element hcreate
  have hrecord : record ∈ eventRecords (chunkEvents chunks) := by
    rw [eventRecords_chunkEvents, hchunks]
    exact mem_mirrorRead.mpr ⟨_, hmem, hread⟩
  cases readAs_of_readItem hread with
  | record =>
    refine ⟨clipDeleteTid range elm, ?_, clipDeleteTid_sortKey range elm,
      clipDeleteTid_data range elm, visibleAsOf_clipDeleteTid range elm⟩
    apply hstage.record_final hrun hrecord
    have htype := ((sortKey_eq_iff _ _).mp (clipDeleteTid_sortKey range elm)).2.2.1
    simpa [hammerMirrorNomirror, htype] using hmirror
  | pass hold =>
    obtain ⟨copy, hcopy, hkey, hdata, hdelete⟩ := hjob.agree elm (mem_scanElements hmem) hold
    have htid := ((sortKey_eq_iff _ _).mp hkey).2.2.2.2
    refine ⟨settleDeleteTid elm copy, hstage.pass_final hrun hrecord hmirror hcopy hkey,
      by rw [settleDeleteTid_sortKey, hkey], ?_, ?_⟩
    · rw [← hdata]
      unfold settleDeleteTid
      split_ifs <;> rfl
    · have hcreated : (settleDeleteTid elm copy).base.createTid = elm.base.createTid := by
        rw [← htid]
        unfold settleDeleteTid
        split_ifs <;> rfl
      have hdeleted : (settleDeleteTid elm copy).base.deleteTid = elm.base.deleteTid := by
        by_cases hzero : elm.base.deleteTid = 0
        · have hsame : settleDeleteTid elm copy = copy := by
            simp [settleDeleteTid, hammerMirrorCheck, hzero]
          rw [hsame]
          exact hdelete (by omega)
        · exact settleDeleteTid_deleteTid copy hzero
      simp only [VisibleAsOf, hcreated, hdeleted]

theorem destroyed_final (hmem : elm ∈ slave)
    (hdestroyed : ∀ kept ∈ scanElements scan, kept.base.sortKey ≠ elm.base.sortKey) :
    (if elm.base.sortKey ∈ transferSwept slave keyBeg chunks then markDeleted range.tidEnd elm
      else elm) ∈ final.tree := by
  apply (stage_first keyBeg hjob hchunks).fate hrun hmem
  intro record hrecord _ hnamed
  rw [eventRecords_chunkEvents, hchunks] at hrecord
  obtain ⟨kept, hkept, hkey, -⟩ := exists_element_of_named hrecord hnamed
  exact hdestroyed kept (mem_scanElements hkept) hkey

end

/-- A record the master does not have stays hidden exactly if it is hidden, or live and
passed by a sweep. -/
theorem visible_swept_iff
    (passed : Prop) [Decidable passed] (hmirror : hammerMirrorNomirror elm.base = false)
    (hcreate : elm.base.createTid < range.tidEnd) :
    VisibleAsOf range.tidEnd (if passed then markDeleted range.tidEnd elm else elm) ↔
      VisibleAsOf range.tidEnd elm ∧ ¬(elm.base.deleteTid = 0 ∧ passed) := by
  by_cases hpassed : passed
  · by_cases hlive : elm.base.deleteTid = 0
    · have hhidden : ¬VisibleAsOf range.tidEnd (elm.withDeleteTid range.tidEnd) := by
        rintro ⟨-, h | h⟩
        · have hzero : range.tidEnd = 0 := h
          omega
        · exact lt_irrefl _ h
      rw [if_pos hpassed, markDeleted_live ⟨hmirror, hlive, hcreate⟩]
      simp [hhidden, hpassed, hlive]
    · rw [if_pos hpassed, markDeleted_of_deleteTid hlive]
      simp [hlive]
  · simp [hpassed]

theorem final_visible_of_kept {base : HammerBaseElm} (hjob : MirroredUpTo range scan slave)
    (hchunks : chunks.flatten = hammerIocMirrorRead range scan)
    (hrun : applyEvents range (chunkEvents chunks) ⟨slave, ⟨0, false⟩, keyBeg⟩ = some final)
    (hplaced : final.Placed) (hrecType : base.recType ≠ hammerRectypeConfig)
    (houtside : ∀ item ∈ scan, ¬item.Covers base.sortKey) (hmem : .element elm ∈ scan)
    (hkey : elm.base.sortKey = base.sortKey) :
    (∃ copy ∈ final.tree, copy.base.sortKey = base.sortKey ∧ copy.data = data ∧
        VisibleAsOf range.tidEnd copy) ↔
      ∃ kept ∈ scanElements scan, kept.base.sortKey = base.sortKey ∧ kept.data = data ∧
        VisibleAsOf range.tidEnd kept := by
  by_cases hcreate : elm.base.createTid ≤ range.tidEnd
  · obtain ⟨copy, hcopy, hcopykey, hdata, hvisible⟩ := exists_copy hjob hchunks hrun hmem
      (nomirror_of_key hkey hrecType) hcreate
    constructor
    · rintro ⟨found, hfound, hfoundkey, rfl, hshown⟩
      have hsame := eq_of_sortKey_eq hplaced.ordered hfound hcopy
        (hfoundkey.trans (hcopykey.trans hkey).symm)
      subst hsame
      exact ⟨elm, mem_scanElements hmem, hkey, hdata.symm, hvisible.mp hshown⟩
    · rintro ⟨kept, hkept, hkeptkey, rfl, hshown⟩
      have hsame := element_unique hjob (element_of_key hjob houtside hkept hkeptkey) hmem
        (hkeptkey.trans hkey.symm)
      subst hsame
      exact ⟨copy, hcopy, hcopykey.trans hkey, hdata, hvisible.mpr hshown⟩
  · -- a record created after the end of the range is neither sent nor shown
    have htid : ∀ other : HammerBtreeLeafElm, other.base.sortKey = base.sortKey →
        other.base.createTid = elm.base.createTid := fun other hother =>
      ((sortKey_eq_iff _ _).mp (hother.trans hkey.symm)).2.2.2.2
    constructor
    · rintro ⟨found, -, hfoundkey, -, hshown, -⟩
      exact absurd (htid found hfoundkey ▸ hshown) hcreate
    · rintro ⟨kept, -, hkeptkey, -, hshown, -⟩
      exact absurd (htid kept hkeptkey ▸ hshown) hcreate

/-- A complete transfer ends, and converges exactly if a sweep passes every visible record
that the master has destroyed. -/
theorem mirrorTransfer_converged_iff (hjob : MirroredUpTo range scan slave)
    (hchunks : chunks.flatten = hammerIocMirrorRead range scan) :
    ∃ tree, writeChunks range slave keyBeg chunks = some tree ∧
      (Converged range scan tree ↔ DestroyedSwept range scan slave keyBeg chunks) := by
  have hstage := stage_first keyBeg hjob hchunks
  obtain ⟨final, hrun⟩ := hstage.run
  have hplaced := hstage.final_placed hrun
  refine ⟨final.tree, by rw [writeChunks_eq range chunks slave ⟨0, false⟩, hrun]; rfl, ?_⟩
  have hold : ∀ elm ∈ slave, elm.base.createTid < range.tidEnd :=
    fun elm helm => (hjob.slaveTids elm helm).trans_le hjob.tids
  constructor
  · intro hconverged elm helm hrecType houtside hdestroyed hvisible
    by_contra hmissed
    have hfinal := destroyed_final hjob hchunks hrun helm hdestroyed
    have hshown := (visible_swept_iff (elm.base.sortKey ∈ transferSwept slave keyBeg chunks)
      (nomirror_of_key rfl hrecType) (hold elm helm)).mpr ⟨hvisible, hmissed⟩
    have hkey : (if elm.base.sortKey ∈ transferSwept slave keyBeg chunks then
        markDeleted range.tidEnd elm else elm).base.sortKey = elm.base.sortKey := by
      split_ifs <;> simp
    obtain ⟨kept, hkept, hkeptkey, -⟩ :=
      (hconverged elm.base hrecType houtside _).mp ⟨_, hfinal, hkey, rfl, hshown⟩
    exact hdestroyed kept hkept hkeptkey
  · intro hswept base hrecType houtside data
    by_cases hexists : ∃ elm ∈ scanElements scan, elm.base.sortKey = base.sortKey
    · obtain ⟨elm, helm, hkey⟩ := hexists
      exact final_visible_of_kept hjob hchunks hrun hplaced hrecType houtside
        (element_of_key hjob houtside helm hkey) hkey
    · push Not at hexists
      constructor
      · rintro ⟨found, hfound, hfoundkey, -, hshown⟩
        exfalso
        rcases mem_final_keys hjob hchunks hrun (mem_treeKeys.mpr ⟨found, hfound, hfoundkey⟩) with
          hslave | ⟨elm, helm, hkey, -⟩
        · obtain ⟨elm, helm, hkey⟩ := mem_treeKeys.mp hslave
          have hdestroyed : ∀ kept ∈ scanElements scan, kept.base.sortKey ≠ elm.base.sortKey :=
            fun kept hkept => hkey ▸ hexists kept hkept
          have hfinal := destroyed_final hjob hchunks hrun helm hdestroyed
          have htype := ((sortKey_eq_iff _ _).mp hkey).2.2.1
          have hsame := eq_of_sortKey_eq hplaced.ordered hfound hfinal
            (hfoundkey.trans (by split_ifs <;> simp [hkey]))
          rw [hsame, visible_swept_iff _ (nomirror_of_key hkey hrecType) (hold elm helm)] at hshown
          exact hshown.2 (hswept elm helm (htype ▸ hrecType) (hkey.symm ▸ houtside) hdestroyed
            hshown.1)
        · exact hexists elm (mem_scanElements helm) hkey
      · rintro ⟨kept, hkept, hkeptkey, -⟩
        exact absurd hkeptkey (hexists kept hkept)

end Transfer

def sampleLeaf (key : ℤ) (createTid deleteTid : ℕ) : HammerBtreeLeafElm :=
  ⟨⟨1, 1, 0x10, key, createTid, deleteTid⟩, []⟩

def sampleRange : MirrorRange :=
  ⟨⟨1, 2, 0, 0, 1, 0⟩, 10, 20⟩

theorem mirroredUpTo_sample (horder : TreeOrdered slave)
    (htids : ∀ elm ∈ slave, elm.base.createTid < 10) (hfirst : sampleLeaf 5 2 0 ∈ slave)
    (hlast : sampleLeaf 9 3 0 ∈ slave) :
    MirroredUpTo sampleRange [.element (sampleLeaf 5 2 0), .element (sampleLeaf 9 3 0)] slave := by
  have hscan : scanElements [.element (sampleLeaf 5 2 0), .element (sampleLeaf 9 3 0)] =
      [sampleLeaf 5 2 0, sampleLeaf 9 3 0] := rfl
  refine ⟨by decide, ?_, ?_, ?_, horder, htids, ?_⟩
  · simp only [pairwise_cons, MirrorScanItem.Precedes, MirrorScanItem.start]
    simp
    decide
  · intro skipBeg skipEnd covered hmem
    simp at hmem
  · rw [hscan]
    simp [sampleLeaf]
  · rw [hscan]
    intro elm helm _
    rcases mem_pair.mp helm with rfl | rfl
    · exact ⟨_, hfirst, rfl, rfl, fun _ => rfl⟩
    · exact ⟨_, hlast, rfl, rfl, fun _ => rfl⟩

/-- The destroyed record lies between two stream records and is marked. -/
theorem mirrorTransfer_converged_between :
    ∃ tree, writeChunks sampleRange
        [sampleLeaf 5 2 0, sampleLeaf 7 4 0, sampleLeaf 9 3 0] (sampleLeaf 0 1 0).base
        [[.pass (sampleLeaf 5 2 0), .pass (sampleLeaf 9 3 0)]] = some tree ∧ Converged sampleRange
        [.element (sampleLeaf 5 2 0), .element (sampleLeaf 9 3 0)] tree := by
  have hjob := @mirroredUpTo_sample
    [sampleLeaf 5 2 0, sampleLeaf 7 4 0, sampleLeaf 9 3 0] (by decide) (by decide)
    (by simp) (by simp)
  have hchunks : [[pass (sampleLeaf 5 2 0), .pass (sampleLeaf 9 3 0)]].flatten =
      hammerIocMirrorRead sampleRange
        [.element (sampleLeaf 5 2 0), .element (sampleLeaf 9 3 0)] := by decide
  obtain ⟨tree, hrun, hiff⟩ :=
    @mirrorTransfer_converged_iff _ _ _ (sampleLeaf 0 1 0).base _ hjob hchunks
  refine ⟨tree, hrun, hiff.mpr ?_⟩
  intro elm helm _ _ hdestroyed _
  have hscan : scanElements [.element (sampleLeaf 5 2 0), .element (sampleLeaf 9 3 0)] =
      [sampleLeaf 5 2 0, sampleLeaf 9 3 0] := rfl
  rw [hscan] at hdestroyed
  simp only [mem_cons, not_mem_nil, or_false] at helm
  rcases helm with rfl | rfl | rfl
  · exact absurd rfl (hdestroyed (sampleLeaf 5 2 0) (by simp))
  · decide
  · exact absurd rfl (hdestroyed (sampleLeaf 9 3 0) (by simp))

/-- The chunk starts on a destroyed record, which counts as consumed and stays. -/
theorem mirrorTransfer_keeps_first :
    MirroredUpTo sampleRange [.element (sampleLeaf 5 2 0), .element (sampleLeaf 9 3 0)]
        [sampleLeaf 4 4 0, sampleLeaf 5 2 0, sampleLeaf 9 3 0] ∧ hammerIocMirrorRead sampleRange
          [.element (sampleLeaf 5 2 0), .element (sampleLeaf 9 3 0)] =
        [.pass (sampleLeaf 5 2 0), .pass (sampleLeaf 9 3 0)] ∧
      writeChunks sampleRange [sampleLeaf 4 4 0, sampleLeaf 5 2 0, sampleLeaf 9 3 0]
          (sampleLeaf 0 1 0).base [[.pass (sampleLeaf 5 2 0), .pass (sampleLeaf 9 3 0)]] =
        some [sampleLeaf 4 4 0, sampleLeaf 5 2 0, sampleLeaf 9 3 0] ∧
      ¬Converged sampleRange [.element (sampleLeaf 5 2 0), .element (sampleLeaf 9 3 0)]
        [sampleLeaf 4 4 0, sampleLeaf 5 2 0, sampleLeaf 9 3 0] := by
  refine ⟨mirroredUpTo_sample (by decide) (by decide) (by simp) (by simp), by decide, by decide, ?_⟩
  intro hconverged
  have hshown := (hconverged (sampleLeaf 4 4 0).base (by decide) (by simp [MirrorScanItem.Covers])
    []).mp ⟨sampleLeaf 4 4 0, by simp, rfl, rfl, by decide, .inl rfl⟩
  obtain ⟨elm, helm, hkey, -⟩ := hshown
  have hscan : scanElements [.element (sampleLeaf 5 2 0), .element (sampleLeaf 9 3 0)] =
      [sampleLeaf 5 2 0, sampleLeaf 9 3 0] := rfl
  rw [hscan] at helm
  rcases mem_pair.mp helm with rfl | rfl
  · exact absurd hkey (by decide)
  · exact absurd hkey (by decide)

end DragonFly.Hammer
