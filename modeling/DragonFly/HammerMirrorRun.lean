import DragonFly.HammerMirrorSweep

/-!
# Runs of the mirror writer

Streams in key order, and what a run over one leaves behind: the keys of the
target, the elements it keeps, and the records that need no update any more.
-/

namespace DragonFly.Hammer

open List MirrorRecord

/-! ## Streams in key order -/

def MirrorRecord.Precedes (record later : MirrorRecord) : Prop :=
  match record with
  | .skip _ skipEnd => skipEnd.sortKey ≤ later.start
  | .record leaf => leaf.base.sortKey < later.start
  | .pass leaf => leaf.base.sortKey < later.start

def MirrorRecord.Forward : MirrorRecord → Prop
  | .skip skipBeg skipEnd => skipBeg.sortKey ≤ skipEnd.sortKey
  | _ => True

structure InKeyOrder (records : List MirrorRecord) : Prop where
  pairwise : records.Pairwise MirrorRecord.Precedes
  forward : ∀ record ∈ records, record.Forward

variable {records : List MirrorRecord} {record later : MirrorRecord}
  {leaf elm : HammerBtreeLeafElm} {key : SortKey} {range : MirrorRange}
  {target final target' : MirrorTarget}

theorem InKeyOrder.of_cons (horder : InKeyOrder (record :: records)) : InKeyOrder records :=
  ⟨(pairwise_cons.mp horder.pairwise).2,
    fun later hlater => horder.forward later (mem_cons_of_mem _ hlater)⟩

theorem MirrorRecord.Precedes.leaf_lt
    (hprecedes : record.Precedes later) (hleaf : record.leaf? = some leaf) :
    leaf.base.sortKey < later.start := by
  cases record with
  | skip => cases hleaf
  | record | pass => exact Option.some.inj hleaf ▸ hprecedes

theorem MirrorRecord.Precedes.start_le
    (hprecedes : record.Precedes later) (hforward : record.Forward) :
    record.start ≤ later.start := by
  cases record with
  | skip => exact le_trans hforward hprecedes
  | record | pass => exact le_of_lt hprecedes

theorem InKeyOrder.start_le (horder : InKeyOrder (record :: records)) :
    ∀ later ∈ record :: records, record.start ≤ later.start := by
  intro later hlater
  rcases mem_cons.mp hlater with rfl | hlater
  · exact le_rfl
  · exact ((pairwise_cons.mp horder.pairwise).1 later hlater).start_le
      (horder.forward record mem_cons_self)

/-! ## What a run leaves behind -/

theorem MirrorRecord.start_of_creates (hcreates : record.creates range = some key) :
    record.start = key := by
  obtain ⟨leaf, rfl, -, -, rfl⟩ := creates_eq_some hcreates
  rfl

theorem MirrorRecord.lt_of_creates
    (hcreates : record.creates range = some key) (hprecedes : record.Precedes later) :
    key < later.start := by
  obtain ⟨leaf, rfl, -, -, rfl⟩ := creates_eq_some hcreates
  exact hprecedes

section

variable (hplaced : target.Placed) (hrun : writeRecords range records target = some final)
include hplaced hrun

theorem run_placed :
    final.Placed := by
  induction records generalizing target with
  | nil => exact Option.some.inj hrun ▸ hplaced
  | cons record records ih =>
    obtain ⟨target', hwritten, hrest⟩ := writeRecords_cons_some hplaced hrun
    exact ih hwritten.placed hrest

theorem run_mem_keys_iff :
    key ∈ treeKeys final.tree ↔
      key ∈ treeKeys target.tree ∨ ∃ record ∈ records, record.creates range = some key := by
  induction records generalizing target with
  | nil =>
    rw [← Option.some.inj hrun]
    simp
  | cons record records ih =>
    obtain ⟨target', hwritten, hrest⟩ := writeRecords_cons_some hplaced hrun
    rw [ih hwritten.placed hrest, hwritten.mem_keys_iff]
    simp [or_assoc]

theorem run_keptAt
    (hmem : key ∈ treeKeys target.tree) (hkept : KeptAt range.tidEnd key target.tree) :
    KeptAt range.tidEnd key final.tree := by
  induction records generalizing target with
  | nil => exact Option.some.inj hrun ▸ hkept
  | cons record records ih =>
    obtain ⟨target', hwritten, hrest⟩ := writeRecords_cons_some hplaced hrun
    apply ih hwritten.placed hrest
    · exact hwritten.mem_keys_iff.mpr (.inl hmem)
    · exact hwritten.keptAt hmem (hkept.sweptTree _)

end

/-- The element a REC or PASS record names needs no update. -/
def Settled (tree : List HammerBtreeLeafElm) (record : MirrorRecord) : Prop :=
  ∀ leaf, record.leaf? = some leaf → hammerMirrorNomirror leaf.base = false →
    ∀ elm ∈ tree, elm.base.sortKey = leaf.base.sortKey → hammerMirrorCheck elm leaf = false

theorem check_settleDeleteTid (leaf elm : HammerBtreeLeafElm) :
    hammerMirrorCheck (settleDeleteTid leaf elm) leaf = false := by
  unfold settleDeleteTid
  split_ifs with hcheck
  · simp [hammerMirrorCheck, HammerBtreeLeafElm.withDeleteTid]
  · simpa using hcheck

theorem check_markDeleted (tidEnd : ℕ) (hcheck : hammerMirrorCheck elm leaf = false) :
    hammerMirrorCheck (markDeleted tidEnd elm) leaf = false := by
  by_cases hdelete : leaf.base.deleteTid = 0
  · simp [hammerMirrorCheck, hdelete]
  · have hsame : elm.base.deleteTid = leaf.base.deleteTid := by
      by_contra hne
      simp [hammerMirrorCheck, hdelete, hne] at hcheck
    rw [markDeleted_of_deleteTid (hsame ▸ hdelete)]
    exact hcheck

theorem Settled.sweptTree (tidEnd : ℕ) (stop : SortKey) (hsettled : Settled target.tree record) :
    Settled (sweptTree tidEnd stop target) record := by
  intro leaf hleaf hmirror elm helm hkey
  obtain ⟨old, hold, rfl⟩ := mem_editKeys.mp helm
  split_ifs at hkey ⊢ with hpassed
  · rw [markDeleted_sortKey] at hkey
    exact check_markDeleted tidEnd (hsettled leaf hleaf hmirror old hold hkey)
  · exact hsettled leaf hleaf hmirror old hold hkey

theorem Written.settled_of_precedes (hwritten : Written range target record target')
    (hprecedes : earlier.Precedes record) (hsettled : Settled target.tree earlier) :
    Settled target'.tree earlier := by
  have hswept := hsettled.sweptTree range.tidEnd record.start
  intro leaf hleaf hmirror elm helm hkey
  have hlt := hprecedes.leaf_lt hleaf
  rcases hwritten.tree_cases with htree | ⟨own, hown, -, htree⟩ | ⟨own, rfl, -, -, -, htree⟩
  · rw [htree] at helm
    exact hswept leaf hleaf hmirror elm helm hkey
  · rw [htree] at helm
    rw [start_of_leaf hown] at hlt
    obtain ⟨old, hold, rfl⟩ := mem_editKeys.mp helm
    split_ifs at hkey ⊢ with hmem
    · rw [settleDeleteTid_sortKey] at hkey
      exact absurd (hkey.symm.trans (mem_singleton.mp hmem)) hlt.ne
    · exact hswept leaf hleaf hmirror old hold hkey
  · rw [htree] at helm
    rcases mem_insertLeaf.mp helm with rfl | helm
    · exact absurd hkey.symm hlt.ne
    · exact hswept leaf hleaf hmirror elm helm hkey

theorem settled_of_missing (hleaf : record.leaf? = some leaf)
    (hmissing : leaf.base.sortKey ∉ treeKeys target.tree) :
    Settled (sweptTree range.tidEnd stop target) record := by
  intro own hown _ elm helm hkey
  rw [hleaf] at hown
  rw [← Option.some.inj hown] at hkey
  rw [← treeKeys_sweptTree range.tidEnd stop target] at hmissing
  exact absurd (mem_treeKeys.mpr ⟨elm, helm, hkey⟩) hmissing

theorem Written.settles (hwritten : Written range target record target') :
    Settled target'.tree record := by
  cases hwritten with
  | skip => exact fun leaf hleaf => absurd hleaf (by simp [leaf?])
  | unmirrored hleaf hconfig _ =>
    intro own hown hmirror
    rw [hleaf] at hown
    rw [← Option.some.inj hown, hconfig] at hmirror
    cases hmirror
  | found hleaf _ _ _ _ his =>
    intro own hown _ elm helm hkey
    rw [hleaf] at hown
    rw [← Option.some.inj hown] at hkey ⊢
    rw [his.tree] at helm
    obtain ⟨old, hold, rfl⟩ := mem_editKeys.mp helm
    split_ifs at hkey ⊢ with hmem
    · exact check_settleDeleteTid _ old
    · exact absurd (mem_singleton.mpr hkey) hmem
  | passMissing _ hmissing his | recordOld _ hmissing _ his =>
    rw [his.tree]
    exact settled_of_missing rfl hmissing
  | @recordCreated leaf _ _ hmissing _ his =>
    intro own hown hmirror elm helm hkey
    rw [his.tree] at helm
    rcases mem_insertLeaf.mp helm with rfl | helm
    · rw [← Option.some.inj hown]
      simp [hammerMirrorCheck]
    · exact settled_of_missing rfl hmissing own hown hmirror elm helm hkey

theorem run_settled_of_precedes (hplaced : target.Placed)
    (hrun : writeRecords range records target = some final)
    (hprecedes : ∀ record ∈ records, earlier.Precedes record)
    (hsettled : Settled target.tree earlier) : Settled final.tree earlier := by
  induction records generalizing target with
  | nil => exact Option.some.inj hrun ▸ hsettled
  | cons record records ih =>
    obtain ⟨target', hwritten, hrest⟩ := writeRecords_cons_some hplaced hrun
    apply ih hwritten.placed hrest
    · exact fun later hlater => hprecedes later (mem_cons_of_mem _ hlater)
    · exact hwritten.settled_of_precedes (hprecedes record mem_cons_self) hsettled

theorem run_settled (hplaced : target.Placed) (horder : InKeyOrder records)
    (hrun : writeRecords range records target = some final) :
    ∀ record ∈ records, Settled final.tree record := by
  induction records generalizing target with
  | nil => exact fun record hmem => absurd hmem (by simp)
  | cons record records ih =>
    obtain ⟨target', hwritten, hrest⟩ := writeRecords_cons_some hplaced hrun
    intro later hlater
    rcases mem_cons.mp hlater with rfl | hlater
    · exact run_settled_of_precedes hwritten.placed hrest
        (pairwise_cons.mp horder.pairwise).1 hwritten.settles
    · exact ih hwritten.placed horder.of_cons hrest later hlater

/-! ## Records that have nothing left to do -/

theorem Written.tree_of_settled
    (hwritten : Written range target record target') (hsettled : Settled target.tree record)
    (hpresent : ∀ key, record.creates range = some key → key ∈ treeKeys target.tree) :
    target'.tree = sweptTree range.tidEnd record.start target := by
  rcases hwritten.tree_cases with htree | ⟨leaf, hleaf, hmirror, htree⟩ |
    ⟨leaf, rfl, hmirror, hmissing, hrecent, -⟩
  · exact htree
  · rw [htree]
    calc
      editKeys [leaf.base.sortKey] (settleDeleteTid leaf)
          (sweptTree range.tidEnd record.start target) =
          (sweptTree range.tidEnd record.start target).map id := by
        apply map_congr_left
        intro elm helm
        split_ifs with hmem
        · have hcheck := hsettled.sweptTree range.tidEnd record.start leaf hleaf hmirror elm helm
            (mem_singleton.mp hmem)
          simp [settleDeleteTid, hcheck]
        · rfl
      _ = sweptTree range.tidEnd record.start target := map_id _
  · exact absurd (hpresent _ (if_pos ⟨hmirror, hrecent⟩)) hmissing

theorem Written.eaten_of_settled (hwritten : Written range target (.record leaf) target')
    (hsettled : Settled target.tree (.record leaf))
    (hpresent : ∀ key, (MirrorRecord.record leaf).creates range = some key →
      key ∈ treeKeys target.tree) :
    target'.scan.eaten = (target.scan.toward leaf.base.sortKey).eaten := by
  cases hwritten with
  | unmirrored hleaf _ his => rw [his.scan, ← Option.some.inj hleaf]
  | found hleaf hmirror helm hkey heaten his =>
    have hcheck := hsettled.sweptTree range.tidEnd _ _ hleaf hmirror _ helm hkey
    rw [his.scan, KeyScan.seek, heaten, hcheck, ← Option.some.inj hleaf]
    rfl
  | recordOld _ _ _ his => rw [his.scan]; rfl
  | recordCreated hmirror hmissing hrecent _ =>
    exact absurd (hpresent _ (if_pos ⟨hmirror, hrecent⟩)) hmissing

theorem settleDeleteTid_deleteTid (elm : HammerBtreeLeafElm) (hdelete : leaf.base.deleteTid ≠ 0) :
    (settleDeleteTid leaf elm).base.deleteTid = leaf.base.deleteTid := by
  unfold settleDeleteTid
  split_ifs with hcheck
  · rfl
  · by_contra hne
    exact hcheck (by simp [hammerMirrorCheck, hdelete, hne])

theorem Written.eaten_record (hwritten : Written range target (.record leaf) target') :
    target'.scan.eaten = (target.scan.toward leaf.base.sortKey).eaten ∨
      target'.scan.eaten = true ∧ leaf.base.sortKey ∈ treeKeys target'.tree ∧
        (leaf ∈ target'.tree ∧ leaf.base.sortKey ∉ treeKeys target.tree ∧
            range.tidBeg ≤ leaf.base.createTid ∨
          KeptAt range.tidEnd leaf.base.sortKey target'.tree) := by
  cases hwritten with
  | unmirrored hleaf _ his => exact .inl (by rw [his.scan, ← Option.some.inj hleaf])
  | recordOld _ _ _ his => exact .inl (by rw [his.scan]; rfl)
  | recordCreated _ hmissing hrecent his =>
    right
    refine ⟨by rw [his.scan], ?_, .inl ⟨?_, hmissing, hrecent⟩⟩
    · rw [his.tree]
      exact mem_treeKeys_insertLeaf.mpr (.inl rfl)
    · rw [his.tree]
      exact mem_insertLeaf.mpr (.inl rfl)
  | @found _ own elm _ _ hleaf _ helm hkey heaten his =>
    have hown : leaf = own := Option.some.inj hleaf
    subst hown
    cases hcheck : hammerMirrorCheck elm leaf with
    | false =>
      left
      rw [his.scan, KeyScan.seek, heaten, hcheck]
      rfl
    | true =>
      right
      have hdelete : leaf.base.deleteTid ≠ 0 := by
        simp only [hammerMirrorCheck, decide_eq_true_eq] at hcheck
        exact hcheck.2
      refine ⟨?_, ?_, .inr ?_⟩
      · rw [his.scan, KeyScan.seek, heaten, hcheck]
        simp
      · rw [his.tree, treeKeys_editKeys _ _ (settleDeleteTid_sortKey leaf)]
        exact mem_treeKeys.mpr ⟨elm, helm, hkey⟩
      · rw [his.tree]
        intro found hfound hsame
        obtain ⟨old, -, rfl⟩ := mem_editKeys.mp hfound
        split_ifs at hsame ⊢ with hmem
        · apply markDeleted_of_deleteTid
          rw [settleDeleteTid_deleteTid old hdelete]
          exact hdelete
        · exact absurd (mem_singleton.mpr hsame) hmem

theorem eq_of_sortKey_eq (hordered : TreeOrdered tree) (helm : elm ∈ tree) (hother : other ∈ tree)
    (hkey : elm.base.sortKey = other.base.sortKey) : elm = other := by
  have hnodup : (tree.map fun elm => elm.base.sortKey).Nodup := hordered.imp fun h => h.ne
  exact inj_on_of_nodup_map hnodup helm hother hkey

theorem writeRecords_append_some
    {later : List MirrorRecord} (hrun : writeRecords range (records ++ later) target = some final) :
    ∃ middle, writeRecords range records target = some middle ∧
      writeRecords range later middle = some final := by
  unfold writeRecords at hrun ⊢
  rw [foldlM_append] at hrun
  exact Option.bind_eq_some_iff.mp hrun

theorem MirrorRecord.Forward.start_le (hforward : record.Forward) :
    record.start ≤ record.landing := by
  cases record with
  | skip => exact hforward
  | record | pass => exact le_rfl

theorem run_untouched
    (hplaced : target.Placed) (hrun : writeRecords range records target = some final)
    (hmem : elm ∈ target.tree) (hbehind : elm.base.sortKey ∉ target.scan.next)
    (hlater : ∀ record ∈ records, elm.base.sortKey < record.start)
    (hforward : ∀ record ∈ records, record.Forward) : elm ∈ final.tree := by
  induction records generalizing target with
  | nil => exact Option.some.inj hrun ▸ hmem
  | cons record records ih =>
    obtain ⟨target', hwritten, hrest⟩ := writeRecords_cons_some hplaced hrun
    have hstart := hlater record mem_cons_self
    have hpassed : elm.base.sortKey ∉ target.scan.passed record.start :=
      fun h => hbehind ((takeWhile_sublist _).mem h)
    have hswept : elm ∈ sweptTree range.tidEnd record.start target :=
      mem_editKeys.mpr ⟨elm, hmem, if_neg hpassed⟩
    apply ih hwritten.placed hrest
    · rcases hwritten.tree_cases with htree | ⟨leaf, hleaf, -, htree⟩ | ⟨leaf, -, -, -, -, htree⟩
      · rwa [htree]
      · rw [htree]
        refine mem_editKeys.mpr ⟨elm, hswept, if_neg ?_⟩
        rw [mem_singleton, ← start_of_leaf hleaf]
        exact hstart.ne
      · rw [htree]
        exact mem_insertLeaf.mpr (.inr hswept)
    · intro hnext
      have hahead := target'.scan.next_sublist.mem hnext
      cases hmirrored : record.mirrored with
      | false =>
        rw [(hwritten.of_unmirrored hmirrored).scan] at hahead
        exact hbehind ((dropWhile_sublist _).mem hahead)
      | true =>
        rw [hwritten.ahead_of_mirrored hplaced hmirrored,
          dropWhile_lt_eq_filter _ hwritten.placed.ordered] at hahead
        have hle : record.landing ≤ elm.base.sortKey := by
          simpa using (mem_filter.mp hahead).2
        exact absurd (hstart.trans_le (hforward record mem_cons_self).start_le) (not_lt.mpr hle)
    · exact fun later h => hlater later (mem_cons_of_mem _ h)
    · exact fun later h => hforward later (mem_cons_of_mem _ h)

end DragonFly.Hammer
