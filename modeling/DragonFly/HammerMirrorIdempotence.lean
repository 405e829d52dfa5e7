import DragonFly.HammerMirrorConvergence

/-!
# Applying a mirror stream twice

The second application of a stream finds every record it created the first
time.  A REC record that is found unchanged does not set `ATEDISK`, so when the
record before it left the flag clear and no element lies in between, the sweep
of the next record meets the element and marks it.  The theorem of this file
says that this is the only way in which the second application changes the
target, for streams that do not move the cursor over the end of a leaf or out of
an internal node: there the next element depends on how the elements are divided
into leaves, which creating a record changes.
-/

namespace DragonFly.Hammer

open List Option KeyScan

/-! ## The records the second run deletes -/

/-- A record after which `ATEDISK` is clear, with the key the cursor is placed at. -/
def MirrorRecord.opensGap (keys : List SortKey) : MirrorRecord → Option SortKey
  | .skip _ skipEnd => some skipEnd.sortKey
  | .pass leaf =>
    if hammerMirrorNomirror leaf.base = false ∧ leaf.base.sortKey ∉ keys then
      some leaf.base.sortKey
    else none
  | .record _ => none

/-- A record that finds nothing and leaves `ATEDISK` as it was, with the cursor at the end of a
leaf or in an internal node. -/
def MirrorRecord.losesPlace (range : MirrorRange) (keys : List SortKey) : MirrorRecord → Prop
  | .skip _ _ => False
  | .pass leaf => hammerMirrorNomirror leaf.base = true
  | .record leaf => hammerMirrorNomirror leaf.base = true ∨
      leaf.base.createTid < range.tidBeg ∧ leaf.base.sortKey ∉ keys

/-- The cursor is on an element, or `ATEDISK` is clear, whenever a further record is written.  A
cursor that starts behind the end of the range is before no element of the stream. -/
structure Tracked (range : MirrorRange) (keys : List SortKey) (records : List MirrorRecord) :
    Prop where
  placed : ∀ record ∈ records.dropLast, ¬record.losesPlace range keys
  inRange : ∀ record ∈ records, record.start ≤ range.keyEnd.sortKey

/-- The record written last left `ATEDISK` clear: a gap was opened and the target
has no element from there on but in `ahead`. -/
def GapOpen (keys : List SortKey) (written : List MirrorRecord) (ahead : SortKey → Prop) : Prop :=
  ∃ before opener gap, written = before ++ [opener] ∧ opener.opensGap keys = some gap ∧
    ∀ key ∈ keys, gap ≤ key → ahead key

/-- The first run creates a live record directly behind an open gap, and another
record follows it. -/
def DeletesOwnRecord
    (range : MirrorRange) (tree : List HammerBtreeLeafElm) (records : List MirrorRecord) : Prop :=
  ∃ written leaf next rest, records = written ++ .record leaf :: next :: rest ∧
    GapOpen (treeKeys tree) written (fun key => leaf.base.sortKey ≤ key) ∧
    leaf.base.sortKey ∉ treeKeys tree ∧
    hammerMirrorNomirror leaf.base = false ∧ leaf.base.deleteTid = 0 ∧
    range.tidBeg ≤ leaf.base.createTid ∧ leaf.base.createTid < range.tidEnd

variable {range : MirrorRange} {keys : List SortKey} {record : MirrorRecord}

variable {target : MirrorTarget} {key stop : SortKey}

theorem mem_treeKeys_of_passed (hpassed : key ∈ target.scan.passed stop) :
    key ∈ treeKeys target.tree :=
  ((drop_sublist _ _).map _).mem ((target.scan.passed_sublist stop).mem hpassed)

theorem sweptTree_eq_self (hkept : ∀ key ∈ target.scan.passed stop, KeptAt tidEnd key target.tree) :
    sweptTree tidEnd stop target = target.tree := by
  calc
    sweptTree tidEnd stop target = target.tree.map id := by
      apply map_congr_left
      intro elm helm
      split_ifs with hmem
      · exact hkept _ hmem elm helm rfl
      · rfl
    _ = target.tree := map_id _

/-! ## The two runs side by side -/

variable {leaf : HammerBtreeLeafElm} {final : MirrorTarget}

section SideBySide

variable {range : MirrorRange} {tree done : List HammerBtreeLeafElm}

/-- The key of an element that the remaining records are past and the first run left
such that a sweep keeps it. -/
def Harmless (range : MirrorRange) (done : List HammerBtreeLeafElm)
    (records : List MirrorRecord) (key : SortKey) : Prop :=
  (∀ record ∈ records, key < record.start) ∧ (records ≠ [] → KeptAt range.tidEnd key done)

/-- The second run, over the tree the first one ends with, against the first. -/
structure Shadows (range : MirrorRange) (tree done : List HammerBtreeLeafElm)
    (written records : List MirrorRecord) (first second : MirrorTarget) : Prop where
  subset : ∀ key ∈ treeKeys first.tree, key ∈ treeKeys second.tree
  agree : ∀ bound, (∀ key ∈ treeKeys second.tree, key ∉ treeKeys first.tree → bound ≤ key) →
    AgreeBelow bound first.scan.ahead second.scan.ahead
  follows : KeyScan.Follows first.scan second.scan (Harmless range done records)
  clear : records ≠ [] → second.scan.eaten = false →
    GapOpen (treeKeys tree) written (· ∈ second.scan.ahead) ∨
      ∃ key ∈ second.scan.ahead, ∀ record ∈ records, key < record.start

theorem agree_landing (hfirst : TreeOrdered first) (hsecond : TreeOrdered second)
    (hsubset : ∀ key ∈ treeKeys first, key ∈ treeKeys second)
    (hbound : ∀ key ∈ treeKeys second, key ∉ treeKeys first → bound ≤ key) :
    AgreeBelow bound ((treeKeys first).dropWhile (· < landing))
      ((treeKeys second).dropWhile (· < landing)) := by
  have hagree : AgreeBelow bound (treeKeys first) (treeKeys second) := by
    apply agreeBelow_of_mem_iff hfirst hsecond
    intro key hlt
    constructor
    · exact hsubset key
    · intro hmem
      by_contra hghost
      exact absurd (hbound key hmem hghost) (not_le.mpr hlt)
  exact hagree.dropWhile landing hfirst hsecond

variable {written records : List MirrorRecord} {record : MirrorRecord}
  {first second first' second' : MirrorTarget}

section

variable (hshadows : Shadows range tree done written (record :: records) first second)
include hshadows

theorem Shadows.step_agree (hfirst : first.Placed) (hsecond : second.Placed)
    (hstop : ∀ key ∈ treeKeys second.tree, key ∉ treeKeys first.tree → record.start ≤ key)
    (hkeys : treeKeys second'.tree = treeKeys second.tree)
    (hsubset : ∀ key ∈ treeKeys first'.tree, key ∈ treeKeys second'.tree)
    (hwritten : Written range first record first')
    (hwritten' : Written range second record second') :
    ∀ bound, (∀ key ∈ treeKeys second'.tree, key ∉ treeKeys first'.tree → bound ≤ key) →
      AgreeBelow bound first'.scan.ahead second'.scan.ahead := by
  intro bound hbound
  cases hmirrored : record.mirrored with
  | true =>
    rw [hwritten.ahead_of_mirrored hfirst hmirrored, hwritten'.ahead_of_mirrored hsecond hmirrored]
    exact agree_landing hwritten.placed.ordered hwritten'.placed.ordered hsubset hbound
  | false =>
    have his := hwritten.of_unmirrored hmirrored
    have hsame : treeKeys first'.tree = treeKeys first.tree := by
      rw [his.tree, treeKeys_sweptTree]
    rw [hkeys, hsame] at hbound
    rw [his.scan, (hwritten'.of_unmirrored hmirrored).scan]
    have hlate : ∀ key, Harmless range done (record :: records) key → key < record.start :=
      fun key hkey => hkey.1 record mem_cons_self
    exact (hshadows.follows.toward hfirst.ahead_sorted hsecond.ahead_sorted hlate
      (hshadows.agree record.start hstop)).2.2 bound (hshadows.agree bound hbound)

theorem Shadows.gapOpen
    (hsecond : second.Placed) (hclear : (second.scan.toward record.start).eaten = false) :
    GapOpen (treeKeys tree) written (· ∈ second.scan.ahead) ∧
      ∀ key ∈ second.scan.ahead, record.start ≤ key := by
  obtain ⟨heaten, hpassed, -⟩ := toward_of_not_eaten hclear
  refine ⟨?_, fun key hkey => le_of_passed_eq_nil hsecond.ahead_sorted heaten hpassed hkey⟩
  rcases hshadows.clear (cons_ne_nil _ _) heaten with hopen | ⟨key, hkey, hlt⟩
  · exact hopen
  · have htrue := toward_eaten_of_mem hsecond.ahead_sorted hkey (hlt record mem_cons_self)
    rw [hclear] at htrue
    cases htrue

section

variable (hfirst : first.Placed) (hsecond : second.Placed)
include hfirst hsecond

theorem Shadows.toward_eaten
    (hstop : ∀ key ∈ treeKeys second.tree, key ∉ treeKeys first.tree → record.start ≤ key) :
    (first.scan.toward record.start).eaten = (second.scan.toward record.start).eaten :=
  (hshadows.follows.toward hfirst.ahead_sorted hsecond.ahead_sorted
    (fun _ hkey => hkey.1 record mem_cons_self) (hshadows.agree record.start hstop)).2.1

theorem Shadows.passed
    (hstop : ∀ key ∈ treeKeys second.tree, key ∉ treeKeys first.tree → record.start ≤ key) :
    ∀ key ∈ second.scan.passed record.start,
      key ∈ first.scan.passed record.start ∨ Harmless range done (record :: records) key :=
  (hshadows.follows.toward hfirst.ahead_sorted hsecond.ahead_sorted
    (fun _ hkey => hkey.1 record mem_cons_self) (hshadows.agree record.start hstop)).1

theorem Shadows.step_follows
    (horder : InKeyOrder (record :: records))
    (hstop : ∀ key ∈ treeKeys second.tree, key ∉ treeKeys first.tree → record.start ≤ key)
    (hpass : record.isPass = true → record.start ∈ treeKeys second.tree →
      record.start ∈ treeKeys first.tree) (hsettled : Settled second.tree record)
    (hpresent : ∀ key, record.creates range = some key → key ∈ treeKeys second.tree)
    (hsubset : ∀ key ∈ treeKeys first'.tree, key ∈ treeKeys second'.tree)
    (hwritten : Written range first record first') (hwritten' : Written range second record second')
    (hown : ∀ leaf, record = .record leaf → leaf.base.sortKey ∈ treeKeys first'.tree →
      (second.scan.toward record.start).eaten = false →
      (leaf ∈ first'.tree ∧ leaf.base.sortKey ∉ treeKeys first.tree ∧
          range.tidBeg ≤ leaf.base.createTid ∨ KeptAt range.tidEnd leaf.base.sortKey first'.tree) →
      records ≠ [] → KeptAt range.tidEnd leaf.base.sortKey done) :
    KeyScan.Follows first'.scan second'.scan (Harmless range done records) := by
  have htoward := hshadows.toward_eaten hfirst hsecond hstop
  cases hmirrored : record.mirrored with
  | false =>
    left
    rw [(hwritten.of_unmirrored hmirrored).scan, (hwritten'.of_unmirrored hmirrored).scan]
    exact htoward
  | true =>
    cases record with
    | skip => exact .inl (hwritten.eaten_skip.trans hwritten'.eaten_skip.symm)
    | pass leaf =>
      left
      have hmirror : hammerMirrorNomirror leaf.base = false := by
        simpa [MirrorRecord.mirrored] using hmirrored
      rw [hwritten.eaten_pass hmirror, hwritten'.eaten_pass hmirror]
      exact decide_eq_decide.mpr ⟨hshadows.subset _, hpass rfl⟩
    | record leaf =>
      have hflag := hwritten'.eaten_of_settled hsettled hpresent
      rcases hwritten.eaten_record with hsame | ⟨htrue, hmem, hcause⟩
      · exact .inl (hsame.trans (htoward.trans hflag.symm))
      · cases hclear : (second.scan.toward leaf.base.sortKey).eaten with
        | true => exact .inl (htrue.trans (hclear ▸ hflag).symm)
        | false =>
          -- the second run leaves its own element to the next sweep
          right
          obtain ⟨rest, hrest⟩ := dropWhile_eq_cons hwritten.placed.ordered hmem
          obtain ⟨rest', hrest'⟩ := dropWhile_eq_cons hwritten'.placed.ordered (hsubset _ hmem)
          refine ⟨leaf.base.sortKey, rest, rest', ?_, ?_, ?_, ?_⟩
          · have hahead := hwritten.ahead_of_mirrored hfirst hmirrored
            rw [MirrorRecord.landing, hrest] at hahead
            rw [← hahead, ← htrue]
          · have hahead := hwritten'.ahead_of_mirrored hsecond hmirrored
            rw [MirrorRecord.landing, hrest'] at hahead
            rw [← hahead, ← hclear, ← hflag]
          · exact fun later hlater =>
              ((pairwise_cons.mp horder.pairwise).1 later hlater).leaf_lt rfl
          · exact hown leaf rfl hmem hclear hcause

end

omit hshadows in
theorem Shadows.step_clear (hsecond : second.Placed) (horder : InKeyOrder (record :: records))
    (htracked : records ≠ [] → ¬record.losesPlace range (treeKeys tree))
    (hbase : ∀ key ∈ treeKeys tree, key ∈ treeKeys second.tree)
    (hkeys : treeKeys second'.tree = treeKeys second.tree)
    (hpresent : ∀ key, record.creates range = some key → key ∈ treeKeys second.tree)
    (hwritten' : Written range second record second') (hne : records ≠ [])
    (hclear : second'.scan.eaten = false) :
    GapOpen (treeKeys tree) (written ++ [record]) (· ∈ second'.scan.ahead) ∨
      ∃ key ∈ second'.scan.ahead, ∀ later ∈ records, key < later.start := by
  have hlanding : ∀ key ∈ treeKeys second.tree, record.mirrored = true →
      record.landing ≤ key → key ∈ second'.scan.ahead := by
    intro key hkey hmirrored hle
    rw [hwritten'.ahead_of_mirrored hsecond hmirrored,
      dropWhile_lt_eq_filter _ hwritten'.placed.ordered, hkeys]
    simp [hkey, hle]
  have hplace := htracked hne
  cases record with
  | skip skipBeg skipEnd =>
    left
    exact ⟨written, _, _, rfl, rfl, fun key hkey hle => hlanding key (hbase key hkey) rfl hle⟩
  | pass leaf =>
    left
    have hmirror : hammerMirrorNomirror leaf.base = false := by
      simpa [MirrorRecord.losesPlace] using hplace
    rw [hwritten'.eaten_pass hmirror, decide_eq_false_iff_not] at hclear
    refine ⟨written, _, _, rfl, if_pos ⟨hmirror, fun h => hclear (hbase _ h)⟩, ?_⟩
    exact fun key hkey =>
      hlanding key (hbase key hkey) (by simp [MirrorRecord.mirrored, hmirror])
  | record leaf =>
    right
    obtain ⟨hmirror, hfound⟩ := not_or.mp hplace
    rw [Bool.not_eq_true] at hmirror
    -- a record that is not old has been created by the first run
    have hmem : leaf.base.sortKey ∈ treeKeys second.tree := by
      by_cases hold : leaf.base.createTid < range.tidBeg
      · exact hbase _ (not_not.mp fun h => hfound ⟨hold, h⟩)
      · exact hpresent _ (if_pos ⟨hmirror, not_lt.mp hold⟩)
    refine ⟨leaf.base.sortKey,
      hlanding _ hmem (by simp [MirrorRecord.mirrored, hmirror]) le_rfl, ?_⟩
    exact fun later hlater => ((pairwise_cons.mp horder.pairwise).1 later hlater).leaf_lt rfl

end

/-- What the next sweep of the second run meets is kept, unless the stream
deletes its own record. -/
theorem Shadows.own_kept (hnot : ¬DeletesOwnRecord range tree (written ++ .record leaf :: records))
    (hshadows : Shadows range tree done written (.record leaf :: records) first second)
    (hsecond : second.Placed) (hbase : ∀ key ∈ treeKeys tree, key ∈ treeKeys first.tree)
    (hplaced : first'.Placed) (hrun : writeRecords range records first' = some final)
    (hmem : leaf.base.sortKey ∈ treeKeys first'.tree)
    (hclear : (second.scan.toward leaf.base.sortKey).eaten = false)
    (hcause : leaf ∈ first'.tree ∧ leaf.base.sortKey ∉ treeKeys first.tree ∧
        range.tidBeg ≤ leaf.base.createTid ∨ KeptAt range.tidEnd leaf.base.sortKey first'.tree)
    (hnext : records ≠ []) : KeptAt range.tidEnd leaf.base.sortKey final.tree := by
  apply run_keptAt hplaced hrun hmem
  rcases hcause with ⟨hleaf, hmissing, hrecent⟩ | hkept
  · have hself : markDeleted range.tidEnd leaf = leaf := by
      by_contra hmarked
      have hlive : leaf.Swept range.tidEnd := by_contra fun h => hmarked (markDeleted_kept h)
      obtain ⟨next, rest, rfl⟩ := exists_cons_of_ne_nil hnext
      obtain ⟨hopen, hle⟩ := hshadows.gapOpen hsecond hclear
      apply hnot
      refine ⟨written, leaf, next, rest, rfl, ?_, fun h => hmissing (hbase _ h), ?_,
        hlive.2.1, hrecent, hlive.2.2⟩
      · obtain ⟨before, opener, gap, hwritten, hopens, hgap⟩ := hopen
        exact ⟨before, opener, gap, hwritten, hopens,
          fun key hkey hgapkey => hle key (hgap key hkey hgapkey)⟩
      · simpa using hlive.1
    intro elm helm hkey
    rw [eq_of_sortKey_eq hplaced.ordered helm hleaf hkey]
    exact hself
  · exact hkept

theorem second_run_quiet (hnot : ¬DeletesOwnRecord range tree total)
    (htracked : ∀ record ∈ total.dropLast, ¬record.losesPlace range (treeKeys tree))
    (htotal : total = written ++ records) (hfirst : first.Placed) (hsecond : second.Placed)
    (horder : InKeyOrder records) (hrun : writeRecords range records first = some final)
    (htree : second.tree = final.tree) (hbase : ∀ key ∈ treeKeys tree, key ∈ treeKeys first.tree)
    (hsettled : ∀ record ∈ records, Settled final.tree record)
    (hshadows : Shadows range tree final.tree written records first second) :
    ∃ again, writeRecords range records second = some again ∧ again.tree = final.tree := by
  induction records generalizing written first second with
  | nil => exact ⟨second, rfl, htree⟩
  | cons record records ih =>
    obtain ⟨first', hwritten, hrest⟩ := writeRecords_cons_some hfirst hrun
    have hown : Settled second.tree record := htree ▸ hsettled record mem_cons_self
    have hghost : ∀ key ∈ treeKeys second.tree, key ∉ treeKeys first.tree →
        ∃ later ∈ record :: records, later.creates range = some key := by
      intro key hkey hmissing
      rw [htree] at hkey
      exact ((run_mem_keys_iff hfirst hrun).mp hkey).resolve_left hmissing
    have hpresent : ∀ key, record.creates range = some key → key ∈ treeKeys second.tree := by
      intro key hcreates
      rw [htree]
      exact (run_mem_keys_iff hfirst hrun).mpr (.inr ⟨record, mem_cons_self, hcreates⟩)
    have hstop : ∀ key ∈ treeKeys second.tree, key ∉ treeKeys first.tree → record.start ≤ key := by
      intro key hkey hmissing
      obtain ⟨later, hlater, hcreates⟩ := hghost key hkey hmissing
      exact MirrorRecord.start_of_creates hcreates ▸ horder.start_le later hlater
    have hpass : record.isPass = true → record.start ∈ treeKeys second.tree →
        record.start ∈ treeKeys first.tree := by
      intro hispass hkey
      by_contra hmissing
      obtain ⟨later, hlater, hcreates⟩ := hghost _ hkey hmissing
      rcases mem_cons.mp hlater with rfl | hlater
      · obtain ⟨leaf, rfl, -⟩ := MirrorRecord.creates_eq_some hcreates
        cases hispass
      · have hlt := (pairwise_cons.mp horder.pairwise).1 later hlater
        have hstart := MirrorRecord.start_of_creates hcreates
        cases record with
        | pass leaf => exact absurd hstart.symm (ne_of_lt hlt)
        | skip | record => cases hispass
    -- the second run does not trip the assertion, since nothing needs an update
    rcases writeRecord_spec range record hsecond with ⟨second', hwrite, hwritten'⟩ | ⟨-, htrips⟩
    · have hswept := hwritten'.tree_of_settled hown hpresent
      have hkeys : treeKeys second'.tree = treeKeys second.tree := by
        rw [hswept, treeKeys_sweptTree]
      have hsame : second'.tree = second.tree := by
        rw [hswept]
        apply sweptTree_eq_self
        intro key hkey
        rw [htree]
        rcases hshadows.passed hfirst hsecond hstop key hkey with hpassed | hlate
        · have hmem : key ∈ treeKeys first.tree := mem_treeKeys_of_passed hpassed
          exact run_keptAt hwritten.placed hrest (hwritten.mem_keys_iff.mpr (.inl hmem))
            (hwritten.keptAt hmem (keptAt_of_passed hpassed))
        · exact hlate.2 (by simp)
      have hsubset : ∀ key ∈ treeKeys first'.tree, key ∈ treeKeys second'.tree := by
        intro key hkey
        rw [hkeys, htree]
        exact (run_mem_keys_iff hwritten.placed hrest).mpr (.inl hkey)
      have hbase' : ∀ key ∈ treeKeys tree, key ∈ treeKeys first'.tree :=
        fun key hkey => hwritten.mem_keys_iff.mpr (.inl (hbase key hkey))
      have hnext : Shadows range tree final.tree (written ++ [record]) records first' second' := by
        refine ⟨hsubset, ?_, ?_, ?_⟩
        · exact hshadows.step_agree hfirst hsecond hstop hkeys hsubset hwritten hwritten'
        · apply hshadows.step_follows hfirst hsecond horder hstop hpass hown hpresent hsubset
            hwritten hwritten'
          rintro leaf rfl hmem hclear hcause hne
          exact hshadows.own_kept (htotal ▸ hnot) hsecond hbase hwritten.placed hrest hmem
            hclear hcause hne
        · refine Shadows.step_clear hsecond horder (fun hne => htracked record ?_)
            (fun key hkey => hshadows.subset key (hbase key hkey)) hkeys hpresent hwritten'
          rw [htotal, dropLast_append_of_ne_nil (cons_ne_nil _ _), dropLast_cons_of_ne_nil hne]
          simp
      obtain ⟨again, hagain, hfinal⟩ := ih (by rw [htotal, append_assoc]; rfl)
        hwritten.placed hwritten'.placed horder.of_cons hrest (hsame.trans htree) hbase'
        (fun later hlater => hsettled later (mem_cons_of_mem _ hlater)) hnext
      exact ⟨again, by rw [writeRecords_cons, hwrite]; exact hagain, hfinal⟩
    · obtain ⟨leaf, elm, hleaf, hmirror, helm, hkey, hcheck, -⟩ := htrips
      have hquiet := hown.sweptTree range.tidEnd _ leaf hleaf hmirror elm helm hkey
      rw [hcheck] at hquiet
      cases hquiet

end SideBySide

/-! ## A record the second run deletes -/

/-- Every record has been applied to the tree before. -/
structure Quiescent (range : MirrorRange) (records : List MirrorRecord)
    (tree : List HammerBtreeLeafElm) : Prop where
  settled : ∀ record ∈ records, Settled tree record
  present : ∀ record ∈ records, ∀ key, record.creates range = some key → key ∈ treeKeys tree

variable {records : List MirrorRecord} {target' : MirrorTarget}

theorem Quiescent.written (hquiet : Quiescent range records target.tree) (hmem : record ∈ records)
    (hwritten : Written range target record target') :
    target'.tree = sweptTree range.tidEnd record.start target ∧
      treeKeys target'.tree = treeKeys target.tree ∧ Quiescent range records target'.tree := by
  have htree := hwritten.tree_of_settled (hquiet.settled record hmem) (hquiet.present record hmem)
  have hkeys : treeKeys target'.tree = treeKeys target.tree := by
    rw [htree, treeKeys_sweptTree]
  refine ⟨htree, hkeys, ?_, ?_⟩
  · intro later hlater
    rw [htree]
    exact (hquiet.settled later hlater).sweptTree range.tidEnd record.start
  · intro later hlater key hcreates
    rw [hkeys]
    exact hquiet.present later hlater key hcreates

theorem quiescent_of_run (hplaced : target.Placed) (horder : InKeyOrder records)
    (hrun : writeRecords range records target = some final) : Quiescent range records final.tree :=
  ⟨run_settled hplaced horder hrun,
    fun record hmem _ hcreates =>
      (run_mem_keys_iff hplaced hrun).mpr (.inr ⟨record, hmem, hcreates⟩)⟩

variable {rest : List MirrorRecord} {next : MirrorRecord}

def DeletedAt (key : SortKey) (tree : List HammerBtreeLeafElm) : Prop :=
  ∀ elm ∈ tree, elm.base.sortKey = key → elm.base.deleteTid ≠ 0

theorem DeletedAt.sweptTree (tidEnd : ℕ) (stop : SortKey) (hdeleted : DeletedAt key target.tree) :
    DeletedAt key (sweptTree tidEnd stop target) := by
  intro elm helm hkey
  obtain ⟨old, hold, rfl⟩ := mem_editKeys.mp helm
  split_ifs at hkey ⊢ with hmem
  · rw [markDeleted_sortKey] at hkey
    rw [markDeleted_of_deleteTid (hdeleted old hold hkey)]
    exact hdeleted old hold hkey
  · exact hdeleted old hold hkey

theorem Quiescent.run (hquiet : Quiescent range records target.tree)
    (hpart : ∀ record ∈ part, record ∈ records) (hplaced : target.Placed)
    (hrun : writeRecords range part target = some final) :
    treeKeys final.tree = treeKeys target.tree ∧ Quiescent range records final.tree ∧
      ∀ key, DeletedAt key target.tree → DeletedAt key final.tree := by
  induction part generalizing target with
  | nil =>
    rw [← some.inj hrun]
    exact ⟨rfl, hquiet, fun _ h => h⟩
  | cons record part ih =>
    obtain ⟨target', hwritten, hrest⟩ := writeRecords_cons_some hplaced hrun
    obtain ⟨htree, hkeys, hquiet'⟩ := hquiet.written (hpart record mem_cons_self) hwritten
    obtain ⟨hfinal, hlast, hdeleted⟩ := ih hquiet'
      (fun later h => hpart later (mem_cons_of_mem _ h)) hwritten.placed hrest
    refine ⟨hfinal.trans hkeys, hlast, fun key hkey => hdeleted key ?_⟩
    rw [htree]
    exact hkey.sweptTree range.tidEnd record.start

theorem deletedAt_of_passed (hpassed : leaf.base.sortKey ∈ target.scan.passed stop)
    (hmirror : hammerMirrorNomirror leaf.base = false)
    (hcreate : leaf.base.createTid < range.tidEnd) :
    DeletedAt leaf.base.sortKey (sweptTree range.tidEnd stop target) := by
  intro elm helm hkey
  obtain ⟨old, -, rfl⟩ := mem_editKeys.mp helm
  split_ifs at hkey ⊢ with hmem
  · rw [markDeleted_sortKey] at hkey
    obtain ⟨-, -, htype, -, htid⟩ := (sortKey_eq_iff _ _).mp hkey
    by_cases hlive : old.base.deleteTid = 0
    · have hold : hammerMirrorNomirror old.base = false := by
        simpa [hammerMirrorNomirror, htype] using hmirror
      rw [markDeleted_live ⟨hold, hlive, htid ▸ hcreate⟩]
      have hpos : range.tidEnd ≠ 0 := by omega
      exact hpos
    · rw [markDeleted_of_deleteTid hlive]
      exact hlive
  · exact absurd (hkey ▸ hpassed) hmem

theorem Quiescent.own_marked (hquiet : Quiescent range records target.tree)
    (hpart : ∀ record ∈ .record leaf :: next :: rest, record ∈ records) (hplaced : target.Placed)
    (hrun : writeRecords range (.record leaf :: next :: rest) target = some final)
    (hclear : target.scan.eaten = false)
    (hahead : ∀ key ∈ target.scan.ahead, leaf.base.sortKey ≤ key)
    (hpresent : leaf.base.sortKey ∈ treeKeys target.tree) (hnext : leaf.base.sortKey < next.start)
    (hmirror : hammerMirrorNomirror leaf.base = false)
    (hcreate : leaf.base.createTid < range.tidEnd) : DeletedAt leaf.base.sortKey final.tree := by
  have hmem := hpart (.record leaf) mem_cons_self
  obtain ⟨found, hwritten, hrest⟩ := writeRecords_cons_some hplaced hrun
  obtain ⟨-, hkeys, hquiet'⟩ := hquiet.written hmem hwritten
  have hstay := toward_eq_self hclear hahead
  have hfound : found.scan.eaten = false := by
    rw [hwritten.eaten_of_settled (hquiet.settled _ hmem) (hquiet.present _ hmem), hstay]
    exact hclear
  have hmirrored : (MirrorRecord.record leaf).mirrored = true := by
    simp [MirrorRecord.mirrored, hmirror]
  have hown : leaf.base.sortKey ∈ found.scan.ahead := by
    rw [hwritten.ahead_of_mirrored hplaced hmirrored, MirrorRecord.landing,
      dropWhile_lt_eq_filter _ hwritten.placed.ordered, hkeys]
    simpa using hpresent
  obtain ⟨swept, hnextwritten, hlast⟩ := writeRecords_cons_some hwritten.placed hrest
  obtain ⟨htree, -, hquiet''⟩ := hquiet'.written (hpart next (by simp)) hnextwritten
  apply (hquiet''.run (fun record h => hpart record (by simp [h])) hnextwritten.placed hlast).2.2
  rw [htree]
  exact deletedAt_of_passed (mem_passed hwritten.placed.ahead_sorted hfound hown hnext)
    hmirror hcreate

theorem opener_clear (hopens : record.opensGap keys = some gap)
    (hwritten : Written range target record target')
    (hmissing : record.isPass = true → record.start ∉ treeKeys target.tree) :
    target'.scan.eaten = false := by
  cases record with
  | skip => exact hwritten.eaten_skip
  | record => cases hopens
  | pass leaf =>
    simp only [MirrorRecord.opensGap] at hopens
    split_ifs at hopens with h
    rw [hwritten.eaten_pass h.1]
    exact decide_eq_false (hmissing rfl)

theorem MirrorRecord.landing_of_opensGap (hopens : record.opensGap keys = some gap) :
    record.landing = gap ∧ record.mirrored = true ∧ ∀ range, record.creates range = none := by
  cases record with
  | skip => exact ⟨some.inj hopens, rfl, fun _ => rfl⟩
  | record => cases hopens
  | pass leaf =>
    simp only [MirrorRecord.opensGap] at hopens
    split_ifs at hopens with h
    exact ⟨some.inj hopens, by simp [MirrorRecord.mirrored, h.1], fun _ => rfl⟩

section OwnRecord

variable {range : MirrorRange} {before after : List MirrorRecord}
  {opener own : MirrorRecord} {keys : List SortKey} {gap : SortKey}

theorem created_outside_gap (horder : InKeyOrder (before ++ [opener] ++ own :: after))
    (hopens : opener.opensGap keys = some gap) (hmem : record ∈ before ++ [opener] ++ own :: after)
    (hcreates : record.creates range = some key) : key < opener.start ∨ own.start ≤ key := by
  obtain ⟨hleft, hright, -⟩ := pairwise_append.mp horder.pairwise
  obtain ⟨-, -, hcross⟩ := pairwise_append.mp hleft
  have hown : InKeyOrder (own :: after) :=
    ⟨hright, fun later h => horder.forward later (mem_append_right _ h)⟩
  rcases mem_append.mp hmem with h | h
  · rcases mem_append.mp h with h | h
    · exact .inl (MirrorRecord.lt_of_creates hcreates (hcross record h opener mem_cons_self))
    · rw [mem_singleton.mp h, (MirrorRecord.landing_of_opensGap hopens).2.2 range] at hcreates
      cases hcreates
  · exact .inr (MirrorRecord.start_of_creates hcreates ▸ hown.start_le record h)

theorem opener_missing (hplaced : first.Placed) (hkeys : treeKeys first.tree = keys)
    (horder : InKeyOrder (before ++ [opener] ++ own :: after))
    (hopens : opener.opensGap keys = some gap)
    (hrun : writeRecords range (before ++ [opener] ++ own :: after) first = some final)
    (hpass : opener.isPass = true) : opener.start ∉ treeKeys final.tree := by
  intro hmem
  cases opener with
  | skip | record => cases hpass
  | pass leaf =>
    simp only [MirrorRecord.opensGap] at hopens
    split_ifs at hopens with hmissing
    rcases (run_mem_keys_iff hplaced hrun).mp hmem with h | ⟨record, hrecord, hcreates⟩
    · exact hmissing.2 (hkeys ▸ h)
    · have hcross := (pairwise_append.mp horder.pairwise).2.2
      have hlt : (MirrorRecord.pass leaf).start < own.start :=
        hcross (.pass leaf) (by simp) own mem_cons_self
      rcases created_outside_gap horder (if_pos hmissing) hrecord hcreates with h | h
      · exact lt_irrefl _ h
      · exact absurd hlt (not_lt.mpr h)

end OwnRecord

theorem first_run_creates {written after : List MirrorRecord} (hplaced : first.Placed)
    (horder : InKeyOrder (written ++ .record leaf :: after))
    (hrun : writeRecords range (written ++ .record leaf :: after) first = some final)
    (hmissing : leaf.base.sortKey ∉ treeKeys first.tree)
    (hmirror : hammerMirrorNomirror leaf.base = false)
    (hrecent : range.tidBeg ≤ leaf.base.createTid) : leaf ∈ final.tree := by
  obtain ⟨-, hright, hcross⟩ := pairwise_append.mp horder.pairwise
  obtain ⟨middle, hbefore, hafter⟩ := writeRecords_append_some hrun
  have hmiddle := run_placed hplaced hbefore
  have hnew : leaf.base.sortKey ∉ treeKeys middle.tree := by
    intro hmem
    rcases (run_mem_keys_iff hplaced hbefore).mp hmem with h | ⟨record, hrecord, hcreates⟩
    · exact hmissing h
    · exact lt_irrefl _ (MirrorRecord.lt_of_creates hcreates
        (hcross record hrecord (.record leaf) mem_cons_self))
  obtain ⟨created, hwritten, hrest⟩ := writeRecords_cons_some hmiddle hafter
  have his : created.Is (insertLeaf leaf (sweptTree range.tidEnd leaf.base.sortKey middle))
      ⟨leaf.base.sortKey :: (treeKeys middle.tree).dropWhile (· < leaf.base.sortKey), true⟩
      leaf.base := by
    cases hwritten with
    | unmirrored hleaf hconfig =>
      rw [← some.inj hleaf, hmirror] at hconfig
      cases hconfig
    | found hleaf _ helm hkey =>
      rw [← some.inj hleaf] at helm hkey
      rw [← treeKeys_sweptTree range.tidEnd leaf.base.sortKey middle] at hnew
      exact absurd (mem_treeKeys.mpr ⟨_, helm, hkey⟩) hnew
    | recordOld _ _ hold => exact absurd hrecent (not_le.mpr hold)
    | recordCreated _ _ _ his => exact his
  have hsorted := hwritten.placed.ahead_sorted
  apply run_untouched hwritten.placed hrest
  · rw [his.tree]
    exact mem_insertLeaf.mpr (.inl rfl)
  · rw [his.scan] at hsorted ⊢
    exact fun hmem => lt_irrefl _ ((pairwise_cons.mp hsorted).1 _ hmem)
  · exact fun record h => (pairwise_cons.mp hright).1 record h
  · exact fun record h => horder.forward record
      (mem_append_right _ (mem_cons_of_mem _ h))

theorem second_run_marks (hfirst : first.Placed) (hkeys : treeKeys first.tree = keys)
    (horder : InKeyOrder (before ++ [opener] ++ .record leaf :: next :: rest))
    (hrun : writeRecords range (before ++ [opener] ++ .record leaf :: next :: rest)
      first = some final) (hsecond : second.Placed) (htree : second.tree = final.tree)
    (hagain : writeRecords range (before ++ [opener] ++ .record leaf :: next :: rest)
      second = some again) (hopens : opener.opensGap keys = some gap)
    (hgap : ∀ key ∈ keys, gap ≤ key → leaf.base.sortKey ≤ key)
    (hpresent : leaf.base.sortKey ∈ treeKeys final.tree)
    (hmirror : hammerMirrorNomirror leaf.base = false)
    (hcreate : leaf.base.createTid < range.tidEnd) : DeletedAt leaf.base.sortKey again.tree := by
  obtain ⟨-, hright, -⟩ := pairwise_append.mp horder.pairwise
  obtain ⟨hlanding, hmirrored, -⟩ := MirrorRecord.landing_of_opensGap hopens
  have hforward : opener.start ≤ gap := hlanding ▸ (horder.forward opener (by simp)).start_le
  have hquiet := htree ▸ quiescent_of_run hfirst horder hrun
  have hfinal : ∀ key ∈ treeKeys final.tree, gap ≤ key → leaf.base.sortKey ≤ key := by
    intro key hkey hle
    rcases (run_mem_keys_iff hfirst hrun).mp hkey with h | ⟨record, hrecord, hcreates⟩
    · exact hgap key (hkeys ▸ h) hle
    · rcases created_outside_gap horder hopens hrecord hcreates with h | h
      · exact absurd (h.trans_le hforward) (not_lt.mpr hle)
      · exact h
  -- the record that opens the gap, then the record behind it
  obtain ⟨opened, hbefore, hafter⟩ := writeRecords_append_some hagain
  obtain ⟨start, hleading, hopening⟩ := writeRecords_append_some hbefore
  obtain ⟨hstartkeys, hstartquiet, -⟩ := hquiet.run (by simp +contextual) hsecond hleading
  have hstart := run_placed hsecond hleading
  obtain ⟨_, hwritten, hnil⟩ := writeRecords_cons_some hstart hopening
  rw [some.inj hnil] at hwritten
  obtain ⟨-, hopenkeys, hopenquiet⟩ := hstartquiet.written (by simp) hwritten
  have hallkeys : treeKeys opened.tree = treeKeys final.tree :=
    hopenkeys.trans (hstartkeys.trans (congrArg treeKeys htree))
  apply hopenquiet.own_marked (by simp +contextual) hwritten.placed hafter
  · apply opener_clear hopens hwritten
    intro hpass
    rw [hstartkeys, htree]
    exact opener_missing hfirst hkeys horder hopens hrun hpass
  · intro key hkey
    rw [hwritten.ahead_of_mirrored hstart hmirrored, hlanding,
      dropWhile_lt_eq_filter _ hwritten.placed.ordered, hallkeys] at hkey
    simp only [mem_filter, decide_eq_true_eq] at hkey
    exact hfinal key hkey.1 hkey.2
  · rw [hallkeys]
    exact hpresent
  · exact (pairwise_cons.mp hright).1 next mem_cons_self
  · exact hmirror
  · exact hcreate

/-! ## Idempotence -/

theorem shadows_first (range : MirrorRange) (hordered : TreeOrdered tree)
    (hfirst : hammerIocMirrorWrite range tree keyBeg records = some final) :
    Shadows range tree final.tree [] records
      ⟨tree, hammerBtreeFirst tree keyBeg range.keyEnd, keyBeg⟩
      ⟨final.tree, hammerBtreeFirst final.tree keyBeg range.keyEnd, keyBeg⟩ := by
  have his := first_is range keyBeg hordered
  have hfinal := run_placed his.placed hfirst
  have his' := first_is range keyBeg hfinal.ordered
  have hsubset : ∀ key ∈ treeKeys tree, key ∈ treeKeys final.tree :=
    fun key hkey => (run_mem_keys_iff his.placed hfirst).mpr (.inl hkey)
  refine ⟨hsubset, ?_, ?_, ?_⟩
  · intro bound hbound
    rw [his.scan, his'.scan]
    exact agree_landing hordered hfinal.ordered hsubset hbound
  · left
    rw [his.scan, his'.scan]
    rfl
  · rw [his'.scan]
    exact fun _ hclear => absurd hclear (by simp [seek])

end DragonFly.Hammer
