import DragonFly.HammerBtreeElm

/-!
# Which records pruning removes

An element of the prune list keeps one version of a record for every `mod_tid` between
`beg_tid` and `end_tid`.  A record is removed if it is created and deleted between two of
the transaction ids that are kept, which `prune_should_delete` decides by comparing two
quotients.
-/

namespace DragonFly.Hammer

structure HammerIocPruneElm where
  begTid : ℕ
  endTid : ℕ
  modTid : ℕ
  deriving DecidableEq

/-- The request; `pruneAll` is the flag `HAMMER_IOC_PRUNE_ALL`. -/
structure HammerIocPrune where
  pruneAll : Bool
  begLocalization : ℕ
  begObjId : ℤ
  endLocalization : ℕ
  endObjId : ℤ
  elms : List HammerIocPruneElm
  deriving DecidableEq

def hammerMaxPruneElms : ℕ := 1024 * 1024 / 24

/-- The checks `hammer_ioc_prune` makes of a request. -/
def HammerIocPrune.Accepted (prune : HammerIocPrune) : Prop :=
  prune.elms.length ≤ hammerMaxPruneElms ∧
    (prune.begLocalization ||| prune.endLocalization) &&& 0xFFFF0000 = 0 ∧
    prune.begLocalization ≤ prune.endLocalization ∧
    (prune.begLocalization = prune.endLocalization → prune.begObjId ≤ prune.endObjId) ∧
    ¬(prune.pruneAll = true ∧ prune.elms ≠ [])

namespace HammerIocPruneElm

variable (scan : HammerIocPruneElm) (elm : HammerBaseElm)

def Stops : Prop :=
  elm.createTid ≥ scan.endTid ∨ elm.deleteTid > scan.endTid

def Covers : Prop :=
  elm.deleteTid ≠ 0 ∧ elm.createTid ≥ scan.begTid ∧ elm.deleteTid ≤ scan.endTid

/-- A distance is a `u_int64_t`. -/
def distance (tid : ℕ) : ℕ :=
  if scan.begTid ≤ tid then tid - scan.begTid else tid + 2 ^ 64 - scan.begTid

def SameModulo : Prop :=
  scan.distance elm.createTid / scan.modTid = scan.distance elm.deleteTid / scan.modTid

instance : Decidable (scan.Stops elm) := inferInstanceAs (Decidable (_ ∨ _))

instance : Decidable (scan.Covers elm) := inferInstanceAs (Decidable (_ ∧ _))

instance : Decidable (scan.SameModulo elm) := inferInstanceAs (Decidable (_ = _))

/-- A transaction id as of which the element keeps every record. -/
def Retains (asof : ℕ) : Prop :=
  asof < scan.begTid ∨ scan.endTid < asof ∨ ∃ k, asof = scan.begTid + k * scan.modTid

end HammerIocPruneElm

/-- The loop over the list, with the element that selects the record; `none` is a division
by zero. -/
def pruneScan : List HammerIocPruneElm → HammerBaseElm → Option (Option HammerIocPruneElm)
  | [], _ => some none
  | scan :: rest, elm =>
    if scan.Stops elm then some none
    else if scan.Covers elm then
      if scan.modTid = 0 then none
      else if scan.SameModulo elm then some (some scan)
      else pruneScan rest elm
    else pruneScan rest elm

def pruneShouldDelete (prune : HammerIocPrune) (elm : HammerBaseElm) : Option Bool :=
  if prune.pruneAll then some (elm.deleteTid ≠ 0)
  else (pruneScan prune.elms elm).map Option.isSome

/-- The record can be judged, and what is removed is not part of a version that is kept. -/
structure KeepsVersions (prune : HammerIocPrune) (elm : HammerBaseElm) : Prop where
  returns : ∃ selected, pruneShouldDelete prune elm = some selected
  hidden : prune.pruneAll = false →
    ∀ scan asof, pruneScan prune.elms elm = some (some scan) → scan.Retains asof →
      hammerBtreeChkts asof elm ≠ 0

/-- The record is created as of a transaction id that is kept. -/
def HammerIocPruneElm.CreatedOn (scan : HammerIocPruneElm) (elm : HammerBaseElm) : Prop :=
  elm.createTid ≠ 0 ∧ elm.createTid < elm.deleteTid ∧
    ∃ k, elm.createTid = scan.begTid + k * scan.modTid

/-- No element that is compared with the record has a modulo of zero, and the one that
selects it keeps no version as of its creation. -/
def OffBoundary : List HammerIocPruneElm → HammerBaseElm → Prop
  | [], _ => True
  | scan :: rest, elm =>
    scan.Stops elm ∨
      if scan.Covers elm then
        scan.modTid ≠ 0 ∧ if scan.SameModulo elm then ¬scan.CreatedOn elm else OffBoundary rest elm
      else OffBoundary rest elm

variable {scan : HammerIocPruneElm} {elm : HammerBaseElm}

/-- Of the ids that are kept only the id of its creation can lie in the life of a record
that is created and deleted under the same quotient. -/
theorem eq_createTid_of_kept (hbeg : scan.begTid ≤ elm.createTid) (hmod : scan.modTid ≠ 0)
    (hsame : scan.SameModulo elm) (hcreated : elm.createTid ≤ scan.begTid + k * scan.modTid)
    (hdeleted : scan.begTid + k * scan.modTid < elm.deleteTid) :
    elm.createTid = scan.begTid + k * scan.modTid := by
  have hpos := Nat.pos_of_ne_zero hmod
  simp only [HammerIocPruneElm.SameModulo, HammerIocPruneElm.distance, if_pos hbeg,
    if_pos (by omega : scan.begTid ≤ elm.deleteTid)] at hsame
  have hlow : k ≤ (elm.deleteTid - scan.begTid) / scan.modTid := by
    rw [Nat.le_div_iff_mul_le hpos]
    omega
  rw [← hsame, Nat.le_div_iff_mul_le hpos] at hlow
  omega

/-- A record that is selected is hidden unless it is created as of an id that is kept. -/
theorem hidden_iff
    (hcovers : scan.Covers elm) (hmod : scan.modTid ≠ 0) (hsame : scan.SameModulo elm) :
    (∀ asof, scan.Retains asof → hammerBtreeChkts asof elm ≠ 0) ↔ ¬scan.CreatedOn elm := by
  obtain ⟨hdeleted, hbeg, hend⟩ := hcovers
  constructor
  · rintro h ⟨hcreated, hlt, k, hk⟩
    apply h elm.createTid (Or.inr (Or.inr ⟨k, hk⟩))
    simp [hammerBtreeChkts, hcreated, hlt]
  · intro hoff asof hretains hvisible
    have hbounds : asof ≠ 0 ∧ elm.createTid ≤ asof ∧ asof < elm.deleteTid := by
      unfold hammerBtreeChkts at hvisible
      split_ifs at hvisible <;> omega
    rcases hretains with hlow | hhigh | ⟨k, rfl⟩
    · omega
    · omega
    · have heq := eq_createTid_of_kept hbeg hmod hsame hbounds.2.1 hbounds.2.2
      exact hoff ⟨by omega, by omega, k, heq⟩

theorem pruneScan_keeps_iff (elms : List HammerIocPruneElm) (elm : HammerBaseElm) :
    (∃ selected, pruneScan elms elm = some selected) ∧
        (∀ scan asof, pruneScan elms elm = some (some scan) → scan.Retains asof →
          hammerBtreeChkts asof elm ≠ 0) ↔ OffBoundary elms elm := by
  induction elms with
  | nil => simp [pruneScan, OffBoundary]
  | cons scan rest ih =>
    simp only [pruneScan, OffBoundary]
    by_cases hstops : scan.Stops elm
    · simp [hstops]
    · by_cases hcovers : scan.Covers elm
      · by_cases hmod : scan.modTid = 0
        · simp [hstops, hcovers, hmod]
        · by_cases hsame : scan.SameModulo elm
          · have hhidden := hidden_iff hcovers hmod hsame
            simp only [hstops, hcovers, hmod, hsame, if_true, if_false, false_or, ← hhidden,
              Option.some.injEq, exists_eq', true_and]
            constructor
            · exact fun h => ⟨hmod, fun asof => h scan asof rfl⟩
            · rintro ⟨-, h⟩ _ asof rfl
              exact h asof
          · simpa [hstops, hcovers, hmod, hsame] using ih
      · simpa [hstops, hcovers] using ih

/-- Pruning keeps the versions it is to keep exactly when no modulo of zero is used and no
record is removed that is created as of an id that is kept. -/
theorem keepsVersions_iff (prune : HammerIocPrune) (elm : HammerBaseElm) :
    KeepsVersions prune elm ↔ prune.pruneAll = true ∨ OffBoundary prune.elms elm := by
  cases hall : prune.pruneAll with
  | true =>
    simp only [true_or, iff_true]
    refine ⟨⟨_, if_pos hall⟩, ?_⟩
    rw [hall]
    exact nofun
  | false =>
    rw [← pruneScan_keeps_iff]
    simp only [Bool.false_eq_true, false_or]
    constructor
    · rintro ⟨⟨selected, hreturns⟩, hhidden⟩
      rw [pruneShouldDelete, if_neg (by simp [hall]), Option.map_eq_some_iff] at hreturns
      exact ⟨⟨_, hreturns.choose_spec.1⟩, hhidden hall⟩
    · rintro ⟨⟨selected, hscan⟩, hhidden⟩
      refine ⟨⟨selected.isSome, ?_⟩, fun _ => hhidden⟩
      simp [pruneShouldDelete, hall, hscan]

/-- A request for the records of one object, keeping the ids 100, 110, 120, …, 200. -/
def everyTen (modTid : ℕ) : HammerIocPrune :=
  ⟨false, 1, 1, 2, 1, [⟨100, 200, modTid⟩]⟩

/-- A record created as of 110 and deleted as of 115 is removed although it is visible as of
110, and a modulo of zero is divided by. -/
theorem removes_kept_version :
    (everyTen 10).Accepted ∧ ¬KeepsVersions (everyTen 10) ⟨1, 1, 1, 0, 110, 115⟩ ∧
      (everyTen 0).Accepted ∧ ¬KeepsVersions (everyTen 0) ⟨1, 1, 1, 0, 105, 106⟩ := by
  refine ⟨by unfold HammerIocPrune.Accepted; decide, ?_,
    by unfold HammerIocPrune.Accepted; decide, ?_⟩
  · intro h
    exact h.hidden rfl ⟨100, 200, 10⟩ 110 (by decide) (Or.inr (Or.inr ⟨1, rfl⟩)) (by decide)
  · rintro ⟨⟨selected, hreturns⟩, -⟩
    revert hreturns
    decide +revert

end DragonFly.Hammer
