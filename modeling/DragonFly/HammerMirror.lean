import DragonFly.HammerBtreeElm
import DragonFly.OrderedScan

/-!
# HAMMER mirroring

The mirror writer applies a stream of SKIP, REC and PASS records to a target
tree.  Between two stream records it walks a tracking cursor over the target
and marks what it meets as deleted.  A tree is the sequence of its leaf
elements, the cursor an index into it together with the `ATEDISK` flag, and
`none` stands for a failed kernel assertion.
-/

namespace DragonFly.Hammer

/-- The records of a mirror stream that the writer acts on. -/
inductive MirrorRecord where
  | skip (skipBeg skipEnd : HammerBaseElm)
  | record (leaf : HammerBtreeLeafElm)
  | pass (leaf : HammerBtreeLeafElm)
  deriving DecidableEq

/-- What the functions below read of `hammer_ioc_mirror_rw`. -/
structure MirrorRange where
  keyEnd : HammerBaseElm
  tidBeg : ℕ
  tidEnd : ℕ

structure TrackingCursor where
  index : ℕ
  atedisk : Bool
  deriving DecidableEq

structure MirrorTarget where
  tree : List HammerBtreeLeafElm
  cursor : TrackingCursor
  keyCur : HammerBaseElm
  deriving DecidableEq

/-! ## The tracking cursor -/

section

variable (tree : List HammerBtreeLeafElm) (cursor : TrackingCursor)

def iterateIndex : ℕ :=
  if cursor.index < tree.length ∧ cursor.atedisk = true then cursor.index + 1 else cursor.index

/-- `hammer_btree_iterate` with an exclusive `key_end`. -/
def hammerBtreeIterate (keyEnd : HammerBaseElm) : Option HammerBtreeLeafElm × TrackingCursor :=
  let cursor := { cursor with index := iterateIndex tree cursor }
  match tree[cursor.index]? with
  | none => (none, cursor)
  | some elm =>
    if hammerBtreeCmp keyEnd elm.base < 0 then (none, cursor)
    else if hammerBtreeCmp keyEnd elm.base = 0 then (none, cursor)
    else (some elm, cursor)

def lookupIndex (keyBeg : HammerBaseElm) : ℕ :=
  tree.findIdx (fun elm => decide (0 ≤ hammerBtreeCmp elm.base keyBeg))

/-- The element `hammer_btree_lookup` finds; `none` is `ENOENT`. -/
def hammerBtreeLookup (keyBeg : HammerBaseElm) : Option HammerBtreeLeafElm :=
  match tree[lookupIndex tree keyBeg]? with
  | none => none
  | some elm => if hammerBtreeCmp elm.base keyBeg = 0 then some elm else none

def hammerBtreeFirst (keyBeg keyEnd : HammerBaseElm) : TrackingCursor :=
  match hammerBtreeLookup tree keyBeg with
  | some _ => ⟨lookupIndex tree keyBeg, true⟩
  | none =>
    { (hammerBtreeIterate tree ⟨lookupIndex tree keyBeg, false⟩ keyEnd).2 with atedisk := true }

end

section

variable (target : MirrorTarget)

/-- `hammer_delete_at_cursor` with `HAMMER_DELETE_ADJUST` on the element at the cursor. -/
def hammerDeleteAtCursor (elm : HammerBtreeLeafElm) (deleteTid : ℕ) : Option MirrorTarget :=
  if deleteTid = elm.base.createTid then none
  else
    some { target with
      tree := target.tree.set target.cursor.index
        { elm with base := { elm.base with deleteTid := deleteTid } }
      cursor := { target.cursor with atedisk := false } }

/-- The insertion of `hammer_create_at_cursor`, after a lookup that returned `ENOENT`. -/
def hammerCreateAtCursor (leaf : HammerBtreeLeafElm) : MirrorTarget :=
  { target with
    tree := target.tree.take target.cursor.index ++ leaf :: target.tree.drop target.cursor.index
    cursor := { target.cursor with atedisk := true } }

/-! ## The mirror writer -/

def hammerMirrorNomirror (base : HammerBaseElm) : Bool :=
  decide (base.recType = hammerRectypeConfig)

def hammerMirrorCheck (elm leaf : HammerBtreeLeafElm) : Bool :=
  decide (elm.base.deleteTid ≠ leaf.base.deleteTid ∧ leaf.base.deleteTid ≠ 0)

def hammerMirrorUpdate (elm leaf : HammerBtreeLeafElm) : Option MirrorTarget :=
  if leaf.base.deleteTid = 0 then some target
  else
    (hammerDeleteAtCursor target elm leaf.base.deleteTid).map fun target =>
      { target with cursor := { target.cursor with atedisk := true } }

end

/-- The loop of `hammer_mirror_delete_to`.  A record is returned a second time
after it has been marked, since `hammer_delete_at_cursor` clears `ATEDISK`. -/
def deleteToLoop (tidEnd : ℕ) (keyEnd : HammerBaseElm) : ℕ → MirrorTarget → Option MirrorTarget
  | 0, _ => none
  | fuel + 1, target =>
    match hammerBtreeIterate target.tree target.cursor keyEnd with
    | (none, cursor) => some { target with cursor := cursor }
    | (some elm, cursor) =>
      let target := { target with cursor := { cursor with atedisk := true } }
      if hammerMirrorNomirror elm.base then deleteToLoop tidEnd keyEnd fuel target
      else if elm.base.deleteTid = 0 ∧ elm.base.createTid < tidEnd then
        (hammerDeleteAtCursor target elm tidEnd).bind (deleteToLoop tidEnd keyEnd fuel)
      else deleteToLoop tidEnd keyEnd fuel target

def hammerMirrorDeleteTo (tidEnd : ℕ) (keyEnd : HammerBaseElm) (target : MirrorTarget) :
    Option MirrorTarget :=
  deleteToLoop tidEnd keyEnd (2 * target.tree.length + 1) target

section

variable (range : MirrorRange)

def hammerIocMirrorWriteSkip (skipBeg skipEnd : HammerBaseElm) (target : MirrorTarget) :
    Option MirrorTarget :=
  (hammerMirrorDeleteTo range.tidEnd skipBeg target).map fun target =>
    { target with
      cursor := ⟨lookupIndex target.tree skipEnd, false⟩
      keyCur := skipEnd }

variable (leaf : HammerBtreeLeafElm)

section

variable (target : MirrorTarget)

/-- `hammer_ioc_mirror_write_rec` from the lookup on. -/
def placeRec : Option MirrorTarget :=
  match hammerBtreeLookup target.tree leaf.base with
  | some elm =>
    if hammerMirrorCheck elm leaf then hammerMirrorUpdate target elm leaf else some target
  | none =>
    if leaf.base.createTid ≥ range.tidBeg then some (hammerCreateAtCursor target leaf)
    else some target

/-- `hammer_ioc_mirror_write_pass` from the lookup on. -/
def passOver : Option MirrorTarget :=
  match hammerBtreeLookup target.tree leaf.base with
  | some elm =>
    (if hammerMirrorCheck elm leaf then hammerMirrorUpdate target elm leaf
      else some target).map fun target =>
      { target with cursor := { target.cursor with atedisk := true } }
  | none => some { target with cursor := { target.cursor with atedisk := false } }

def seekTo (keyBeg : HammerBaseElm) : MirrorTarget :=
  { target with cursor := { target.cursor with index := lookupIndex target.tree keyBeg } }

def hammerIocMirrorWriteRec : Option MirrorTarget :=
  (hammerMirrorDeleteTo range.tidEnd leaf.base target).bind fun target =>
    if hammerMirrorNomirror leaf.base then some target
    else
      (placeRec range leaf (seekTo target leaf.base)).map fun target =>
        { target with keyCur := leaf.base }

def hammerIocMirrorWritePass : Option MirrorTarget :=
  (hammerMirrorDeleteTo range.tidEnd leaf.base target).bind fun target =>
    if hammerMirrorNomirror leaf.base then some target
    else
      (passOver leaf (seekTo target leaf.base)).map fun target =>
        { target with keyCur := leaf.base }

def writeRecord : MirrorRecord → Option MirrorTarget
  | .skip skipBeg skipEnd => hammerIocMirrorWriteSkip range skipBeg skipEnd target
  | .record leaf => hammerIocMirrorWriteRec range leaf target
  | .pass leaf => hammerIocMirrorWritePass range leaf target

end

def writeRecords (records : List MirrorRecord) (target : MirrorTarget) : Option MirrorTarget :=
  records.foldlM (writeRecord range) target

/-- One call of `hammer_ioc_mirror_write`: the cursor is positioned at `key_cur`
and the records of the buffer are applied. -/
def hammerIocMirrorWrite (tree : List HammerBtreeLeafElm) (keyCur : HammerBaseElm)
    (records : List MirrorRecord) : Option MirrorTarget :=
  writeRecords range records
    { tree := tree
      cursor := hammerBtreeFirst tree keyCur range.keyEnd
      keyCur := keyCur }

end

/-- Successive calls, each of which resumes at the `key_cur` the one before left. -/
def writeChunks (range : MirrorRange) (tree : List HammerBtreeLeafElm) (keyCur : HammerBaseElm) :
    List (List MirrorRecord) → Option (List HammerBtreeLeafElm)
  | [] => some tree
  | chunk :: chunks =>
    (hammerIocMirrorWrite range tree keyCur chunk).bind fun target =>
      writeChunks range target.tree target.keyCur chunks

/-! ## The mirror reader -/

/-- What the mirror-filtered scan of `hammer_ioc_mirror_read` returns: a leaf
element, or the range of the subtrees `hammer_cursor_mirror_filter` skips. -/
inductive MirrorScanItem where
  | element (leaf : HammerBtreeLeafElm)
  | filtered (skipBeg skipEnd : HammerBaseElm) (covered : List HammerBtreeLeafElm)

def readItem (range : MirrorRange) : MirrorScanItem → Option MirrorRecord
  | .filtered skipBeg skipEnd _ => some (.skip skipBeg skipEnd)
  | .element leaf =>
    if leaf.base.createTid > range.tidEnd then none
    else if leaf.base.createTid < range.tidBeg then some (.pass leaf)
    else if leaf.base.deleteTid > range.tidEnd then
      some (.record { leaf with base := { leaf.base with deleteTid := 0 } })
    else some (.record leaf)

def hammerIocMirrorRead (range : MirrorRange) (scan : List MirrorScanItem) : List MirrorRecord :=
  scan.filterMap (readItem range)

end DragonFly.Hammer
