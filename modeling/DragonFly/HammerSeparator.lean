import DragonFly.HammerBtreeElm

/-!
# The separator between two B-Tree elements

`hammer_make_separator` takes the middle of the first field in which the keys
differ, in the arithmetic of that field's type, and the later fields from the
right-hand key.  A distance the type does not hold makes the middle wrap.
-/

namespace DragonFly.Hammer

/-- The fields are values of their C types. -/
structure HammerBaseElm.InRange (base : HammerBaseElm) : Prop where
  localization : base.localization < 2 ^ 32
  objId : -2 ^ 63 ≤ base.objId ∧ base.objId < 2 ^ 63
  recType : base.recType < 2 ^ 16
  key : -2 ^ 63 ≤ base.key ∧ base.key < 2 ^ 63
  createTid : base.createTid < 2 ^ 64

def uint (width : ℕ) (n : ℤ) : ℤ :=
  n % 2 ^ width

def sint (width : ℕ) (n : ℤ) : ℤ :=
  (n + 2 ^ (width - 1)) % 2 ^ width - 2 ^ (width - 1)

/-- `MAKE_SEPARATOR`, with the type of the expression and that of the field. -/
def makeSeparator (promoted stored : ℤ → ℤ) (field1 field2 : ℤ) : ℤ :=
  stored (field1 + promoted (field2 - field1 + 1) / 2)

def hammerMakeSeparator (key1 key2 : HammerBaseElm) : HammerBaseElm :=
  let dest : HammerBaseElm :=
    { localization := (makeSeparator (uint 32) (uint 32)
        key1.localization key2.localization).toNat
      objId := key2.objId
      recType := key2.recType
      key := key2.key
      createTid := key2.createTid
      deleteTid := 0 }
  if key1.localization = key2.localization then
    let dest := { dest with
      objId := makeSeparator (sint 64) (sint 64) key1.objId key2.objId }
    if key1.objId = key2.objId then
      let dest := { dest with
        recType := (makeSeparator (sint 32) (uint 16)
          key1.recType key2.recType).toNat }
      if key1.recType = key2.recType then
        { dest with
          key := makeSeparator (sint 64) (sint 64) key1.key key2.key }
      else dest
    else dest
  else dest

/-! ## One field -/

/-- The middle lies between the fields, is the left one if the distance is the
whole type, and lies outside if the distance is not a value of the type. -/
theorem makeSeparator_sint (hmin : -2 ^ 63 ≤ field1) (hlt : field1 < field2)
    (hmax : field2 < 2 ^ 63) :
    let field := makeSeparator (sint 64) (sint 64) field1 field2
    (field2 - field1 + 1 < 2 ^ 63 → field1 < field ∧ field ≤ field2) ∧
      (field2 - field1 + 1 = 2 ^ 64 → field = field1) ∧
      (¬field2 - field1 + 1 < 2 ^ 63 → field2 - field1 + 1 ≠ 2 ^ 64 →
        field < field1 ∨ field2 < field) := by
  simp only [makeSeparator, sint]
  omega

theorem makeSeparator_localization
    {field1 field2 : ℕ} (hlt : field1 < field2) (hmax : field2 < 2 ^ 32) :
    let field := (makeSeparator (uint 32) (uint 32) field1 field2).toNat
    ((field2 : ℤ) - field1 + 1 < 2 ^ 32 → field1 < field ∧ field ≤ field2) ∧
      ((field2 : ℤ) - field1 + 1 = 2 ^ 32 → field = field1) ∧
      (¬(field2 : ℤ) - field1 + 1 < 2 ^ 32 → (field2 : ℤ) - field1 + 1 = 2 ^ 32) := by
  simp only [makeSeparator, uint]
  omega

theorem makeSeparator_recType {field1 field2 : ℕ} (hlt : field1 < field2) (hmax : field2 < 2 ^ 16) :
    let field := (makeSeparator (sint 32) (uint 16) field1 field2).toNat
    field1 < field ∧ field ≤ field2 := by
  simp only [makeSeparator, uint, sint]
  omega

theorem makeSeparator_self {key : HammerBaseElm} (h : key.InRange) :
    (makeSeparator (uint 32) (uint 32) key.localization key.localization).toNat = key.localization ∧
      makeSeparator (sint 64) (sint 64) key.objId key.objId = key.objId ∧
      (makeSeparator (sint 32) (uint 16) key.recType key.recType).toNat = key.recType ∧
      makeSeparator (sint 64) (sint 64) key.key key.key = key.key := by
  have hlocalization := h.localization
  have hobjId := h.objId
  have hrecType := h.recType
  have hkey := h.key
  simp only [makeSeparator, uint, sint]
  omega

/-! ## The whole key -/

/-- The field has a middle: the distance is a value of the type, or it is all of
the type, the middle is the left field and the `rest` decides. -/
def HasMiddle (limit modulus field1 field2 : ℤ) (rest : Prop) : Prop :=
  field2 - field1 + 1 < limit ∨ field2 - field1 + 1 = modulus ∧ rest

/-- The first field in which the keys differ has a middle. -/
def Separable (key1 key2 : HammerBaseElm) : Prop :=
  if key1.localization ≠ key2.localization then
    HasMiddle (2 ^ 32) (2 ^ 32) key1.localization key2.localization
      (hammerBtreeCmp { key1 with localization := key2.localization } key2 < 0)
  else if key1.objId ≠ key2.objId then
    HasMiddle (2 ^ 63) (2 ^ 64) key1.objId key2.objId
      (hammerBtreeCmp { key1 with objId := key2.objId } key2 < 0)
  else if key1.recType ≠ key2.recType then True
  else
    HasMiddle (2 ^ 63) (2 ^ 64) key1.key key2.key
      (hammerBtreeCmp { key1 with key := key2.key } key2 < 0)

/-- `dest` lies behind the left-hand key and not behind the right-hand one. -/
def Separates (key1 key2 dest : HammerBaseElm) : Prop :=
  hammerBtreeCmp key1 dest < 0 ∧ hammerBtreeCmp dest key2 ≤ 0

theorem separates_iff_sortKey (key1 key2 dest : HammerBaseElm) :
    Separates key1 key2 dest ↔ key1.sortKey < dest.sortKey ∧ ¬key2.sortKey < dest.sortKey := by
  rw [Separates, hammerBtreeCmp_neg_iff, ← hammerBtreeCmp_pos_iff dest key2, not_lt]

/-- The fields behind decide only if the middle is the left-hand field. -/
theorem middle_decides [LinearOrder α] {a b middle : α} (hlt : a < b)
    (hfits : fits → a < middle ∧ middle ≤ b) (hwhole : whole → middle = a)
    (hnot : ¬fits → ¬whole → middle < a ∨ b < middle) :
    (a < middle ∨ a = middle ∧ rest) ∧ ¬b < middle ↔ fits ∨ whole ∧ rest := by
  by_cases hf : fits
  · simp [hf, (hfits hf).1, (hfits hf).2]
  · by_cases hw : whole
    · simp [hf, hw, hwhole hw, hlt.le]
    · rcases hnot hf hw with hout | hout
      · simp [hf, hw, hout.not_gt, hout.ne']
      · simp [hf, hw, hout]

variable {key1 key2 : HammerBaseElm}

/-- A separator separates exactly when the first field in which the keys differ
has a middle in its type. -/
theorem separates_iff
    (hrange1 : key1.InRange) (hrange2 : key2.InRange) (h : hammerBtreeCmp key1 key2 < 0) :
    Separates key1 key2 (hammerMakeSeparator key1 key2) ↔ Separable key1 key2 := by
  obtain ⟨hsame1, hsame2, hsame3, hsame4⟩ := makeSeparator_self hrange2
  rw [hammerBtreeCmp_neg_iff, sortKey_lt_iff] at h
  rw [separates_iff_sortKey]
  rcases h with hlt | ⟨hlocalization, hlt | ⟨hobjId, hlt | ⟨hrecType, hlt | ⟨hkey, htid⟩⟩⟩⟩
  · obtain ⟨hfits, hwhole, hall⟩ := makeSeparator_localization hlt hrange2.localization
    simp only [Separable, HasMiddle, hammerMakeSeparator, hlt.ne, ne_eq,
      not_false_eq_true, ↓reduceIte, hammerBtreeCmp_neg_iff, sortKey_lt_iff,
      lt_irrefl, and_false, or_false, false_or, true_and]
    exact middle_decides hlt hfits hwhole fun hf hw => absurd (hall hf) hw
  · obtain ⟨hfits, hwhole, hnot⟩ := makeSeparator_sint hrange1.objId.1 hlt hrange2.objId.2
    simp only [Separable, HasMiddle, hammerMakeSeparator, hlocalization,
      hlt.ne, hsame1, ne_eq, not_true_eq_false, not_false_eq_true, ↓reduceIte,
      hammerBtreeCmp_neg_iff, sortKey_lt_iff, lt_irrefl, and_false, or_false,
      false_or, true_and]
    exact middle_decides hlt hfits hwhole hnot
  · have hmiddle := makeSeparator_recType hlt hrange2.recType
    simp only [Separable, hammerMakeSeparator, hlocalization, hobjId, hlt.ne,
      hsame1, hsame2, ne_eq, not_true_eq_false, not_false_eq_true, ↓reduceIte,
      sortKey_lt_iff, lt_irrefl, and_false, or_false, false_or, true_and,
      iff_true]
    exact ⟨Or.inl hmiddle.1, not_lt.mpr hmiddle.2⟩
  · obtain ⟨hfits, hwhole, hnot⟩ := makeSeparator_sint hrange1.key.1 hlt hrange2.key.2
    simp only [Separable, HasMiddle, hammerMakeSeparator, hlocalization,
      hobjId, hrecType, hsame1, hsame2, hsame3, ne_eq, not_true_eq_false,
      ↓reduceIte, hammerBtreeCmp_neg_iff, sortKey_lt_iff, lt_irrefl,
      and_false, or_false, false_or, true_and]
    exact middle_decides hlt hfits hwhole hnot
  · simp [Separable, HasMiddle, hammerMakeSeparator, hlocalization, hobjId,
      hrecType, hkey, hsame1, hsame2, hsame3, hsame4, sortKey_lt_iff, htid]

theorem separates_adjacent :
    Separates ⟨1, 5, 1, 7, 3, 0⟩ ⟨1, 5, 1, 8, 2, 0⟩
      (hammerMakeSeparator ⟨1, 5, 1, 7, 3, 0⟩ ⟨1, 5, 1, 8, 2, 0⟩) := by
  refine (separates_iff ?_ ?_ ?_).mpr ?_
  · constructor <;> decide
  · constructor <;> decide
  · decide
  · exact Or.inl (by decide)

/-- A key at each end of the localization space, with the objects the other way
round. -/
def firstLocalization : HammerBaseElm := ⟨0, 2, 1, 0, 1, 0⟩

def lastLocalization : HammerBaseElm := ⟨2 ^ 32 - 1, 1, 1, 0, 1, 0⟩

theorem separator_before_left :
    firstLocalization.InRange ∧ lastLocalization.InRange ∧
      hammerBtreeCmp firstLocalization lastLocalization < 0 ∧
      ¬Separates firstLocalization lastLocalization
        (hammerMakeSeparator firstLocalization lastLocalization) := by
  refine ⟨?_, ?_, by decide, ?_⟩
  · constructor <;> decide
  · constructor <;> decide
  · rintro ⟨hleft, -⟩
    revert hleft
    decide

end DragonFly.Hammer
