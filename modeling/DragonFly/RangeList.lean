import Mathlib

/-!
# Lists of separated ranges

A range is a pair of its first position and the one after its last.  The ranges of
a list are in order and do not touch: between two of them lies a position that
neither covers.  Putting a range in absorbs those it meets.
-/

namespace DragonFly

open List

namespace RangeList

variable {α : Type} [LinearOrder α]

def Covers (ranges : List (α × α)) (x : α) : Prop :=
  ∃ r ∈ ranges, r.1 ≤ x ∧ x < r.2

/-- In order, not touching, none empty, and inside `(low, high]`. -/
structure Apart (low high : α) (ranges : List (α × α)) : Prop where
  pairwise : ranges.Pairwise fun r r' => r.2 < r'.1
  bounds : ∀ r ∈ ranges, low < r.1 ∧ r.1 < r.2 ∧ r.2 ≤ high

/-- A range in front of those that follow it, merged with the ones it reaches. -/
def absorb (w : α × α) : List (α × α) → List (α × α)
  | [] => [w]
  | r :: rest =>
    if r.2 ≤ w.2 then absorb w rest
    else if r.1 ≤ w.2 then (w.1, r.2) :: rest
    else w :: r :: rest

/-- The range that holds `x`, by its place, or else the last one before `x`. -/
def locate (x : α) (cur : ℕ) : List (α × α) → Option ℕ × Bool
  | [] => (cur.ppred, false)
  | r :: rest =>
    if x < r.2 then
      if r.1 ≤ x then (some cur, true) else (cur.ppred, false)
    else locate x (cur + 1) rest

variable {xs : List (α × α)} {x : α}

theorem covers_append : Covers (xs ++ ys) x ↔ Covers xs x ∨ Covers ys x := by
  simp only [Covers, mem_append, or_and_right, exists_or]

theorem covers_cons : Covers (r :: xs) x ↔ (r.1 ≤ x ∧ x < r.2) ∨ Covers xs x := by
  simp only [Covers, mem_cons, exists_eq_or_imp]

variable {pre post : List (α × α)}

namespace Apart

variable {low high : α} {ranges : List (α × α)}

theorem nil : Apart low high ([] : List (α × α)) :=
  ⟨.nil, by simp⟩

theorem cons_iff :
    Apart low high (r :: ranges) ↔
      (low < r.1 ∧ r.1 < r.2 ∧ r.2 ≤ high) ∧ Apart r.2 high ranges := by
  constructor
  · intro h
    obtain ⟨hall, hpairs⟩ := pairwise_cons.mp h.pairwise
    refine ⟨h.bounds r mem_cons_self, hpairs, ?_⟩
    intro r' hr'
    exact ⟨hall r' hr', (h.bounds r' (mem_cons_of_mem r hr')).2⟩
  · rintro ⟨hr, h⟩
    constructor
    · exact pairwise_cons.mpr ⟨fun r' hr' => (h.bounds r' hr').1, h.pairwise⟩
    · intro r' hr'
      rcases mem_cons.mp hr' with rfl | hmem
      · exact hr
      · have hbounds := h.bounds r' hmem
        exact ⟨hr.1.trans (hr.2.1.trans hbounds.1), hbounds.2⟩

theorem mono (h : Apart low high ranges) (hlow : low' ≤ low) (hhigh : high ≤ high') :
    Apart low' high' ranges := by
  refine ⟨h.pairwise, fun r hr => ?_⟩
  have hbounds := h.bounds r hr
  exact ⟨hlow.trans_lt hbounds.1, hbounds.2.1, hbounds.2.2.trans hhigh⟩

theorem append_iff :
    Apart low high (pre ++ post) ↔ Apart low high pre ∧ Apart low high post ∧
        ∀ r ∈ pre, ∀ r' ∈ post, r.2 < r'.1 := by
  constructor
  · intro h
    obtain ⟨hpre, hpost, hcross⟩ := pairwise_append.mp h.pairwise
    refine ⟨⟨hpre, ?_⟩, ⟨hpost, ?_⟩, hcross⟩
    · intro r hr
      exact h.bounds r (mem_append_left _ hr)
    · intro r hr
      exact h.bounds r (mem_append_right _ hr)
  · rintro ⟨hpre, hpost, hcross⟩
    refine ⟨pairwise_append.mpr ⟨hpre.pairwise, hpost.pairwise, hcross⟩, ?_⟩
    intro r hr
    rcases mem_append.mp hr with hmem | hmem
    · exact hpre.bounds r hmem
    · exact hpost.bounds r hmem

end Apart

/-! ## Absorbing -/

variable {low high : α} {w : α × α} {ranges : List (α × α)}

theorem absorb_apart (hw : low < w.1 ∧ w.1 < w.2 ∧ w.2 ≤ high) (h : Apart w.1 high ranges) :
    Apart low high (absorb w ranges) := by
  induction ranges with
  | nil =>
    rw [absorb, Apart.cons_iff]
    exact ⟨hw, Apart.nil⟩
  | cons r rest ih =>
    obtain ⟨hr, hrest⟩ := Apart.cons_iff.mp h
    unfold absorb
    split_ifs with hinside hmeets
    · exact ih (hrest.mono (hr.1.trans hr.2.1).le le_rfl)
    · rw [Apart.cons_iff]
      exact ⟨⟨hw.1, hr.1.trans hr.2.1, hr.2.2⟩, hrest⟩
    · rw [Apart.cons_iff, Apart.cons_iff]
      exact ⟨hw, ⟨not_le.mp hmeets, hr.2⟩, hrest⟩

theorem covers_of_absorb (h : Covers (absorb w ranges) x) :
    (w.1 ≤ x ∧ x < w.2) ∨ Covers ranges x := by
  induction ranges with
  | nil => exact (covers_cons.mp h).imp_right id
  | cons r rest ih =>
    rw [covers_cons]
    unfold absorb at h
    split_ifs at h with hinside hmeets
    · exact (ih h).imp_right Or.inr
    · rcases covers_cons.mp h with hx | hx
      · by_cases hbelow : x < w.2
        · exact Or.inl ⟨hx.1, hbelow⟩
        · exact Or.inr (Or.inl ⟨hmeets.trans (not_lt.mp hbelow), hx.2⟩)
      · exact Or.inr (Or.inr hx)
    · rw [covers_cons, covers_cons] at h
      exact h

theorem exists_mem_absorb (h : Apart low high ranges) :
    ∃ stop rest, absorb w ranges = (w.1, stop) :: rest ∧ w.2 ≤ stop := by
  induction ranges generalizing low with
  | nil => exact ⟨w.2, [], rfl, le_rfl⟩
  | cons r rest ih =>
    obtain ⟨hr, hrest⟩ := Apart.cons_iff.mp h
    unfold absorb
    split_ifs with hinside hmeets
    · exact ih hrest
    · exact ⟨r.2, rest, rfl, (not_le.mp hinside).le⟩
    · exact ⟨w.2, r :: rest, rfl, le_rfl⟩

theorem length_absorb_le (w : α × α) (ranges : List (α × α)) :
    (absorb w ranges).length ≤ ranges.length + 1 := by
  induction ranges with
  | nil => simp [absorb]
  | cons r rest ih =>
    unfold absorb
    split_ifs
    · rw [length_cons]
      omega
    · simp
    · simp

/-! ## Locating -/

/-- What `locate` finds: the range around the position, the position's own place
in front of all ranges, or the range before it. -/
inductive Located (x : α) (ranges : List (α × α)) : Option ℕ × Bool → Prop
  | inside {pre post : List (α × α)} (hranges : ranges = pre ++ r :: post) (hstart : r.1 ≤ x)
      (hstop : x < r.2) :
      Located x ranges (some pre.length, true)
  | front (hafter : ∀ r ∈ ranges, x < r.1) : Located x ranges (none, false)
  | behind {pre post : List (α × α)} (hranges : ranges = pre ++ r :: post) (hstop : r.2 ≤ x)
      (hafter : ∀ r' ∈ post, x < r'.1) :
      Located x ranges (some pre.length, false)

theorem Located.lt_length {found : Option ℕ × Bool} (h : Located x ranges found)
    (hj : found.1 = some j) : j < ranges.length := by
  cases h with
  | inside hranges =>
    cases hj
    rw [hranges, length_append, length_cons]
    omega
  | front => cases hj
  | behind hranges =>
    cases hj
    rw [hranges, length_append, length_cons]
    omega

theorem Located.of_passed (hpassed : ∀ r ∈ pre, r.2 ≤ x) (hafter : ∀ r ∈ post, x < r.1) :
    Located x (pre ++ post) (pre.length.ppred, false) := by
  rcases eq_nil_or_concat pre with hnil | ⟨init, last, hlast⟩
  · subst hnil
    exact .front hafter
  · rw [concat_eq_append] at hlast
    subst hlast
    rw [length_append, length_singleton, Nat.ppred_succ]
    refine .behind ?_ (hpassed last ?_) hafter
    · rw [append_assoc, singleton_append]
    · exact mem_append_right _ mem_cons_self

theorem locate_located
    (pre : List (α × α)) (h : Apart low high ranges) (hpassed : ∀ r ∈ pre, r.2 ≤ x) :
    Located x (pre ++ ranges) (locate x pre.length ranges) := by
  induction ranges generalizing low pre with
  | nil => exact .of_passed hpassed (by simp)
  | cons r rest ih =>
    obtain ⟨hr, hrest⟩ := Apart.cons_iff.mp h
    unfold locate
    split_ifs with hstop hstart
    · exact .inside rfl hstart hstop
    · apply Located.of_passed hpassed
      intro r' hr'
      have hbefore : x < r.1 := not_le.mp hstart
      rcases mem_cons.mp hr' with rfl | hmem
      · exact hbefore
      · exact hbefore.trans (hr.2.1.trans (hrest.bounds r' hmem).1)
    · have hnext := ih (pre ++ [r]) hrest ?_
      · rw [append_assoc, singleton_append, length_append] at hnext
        exact hnext
      · intro r' hr'
        rcases mem_append.mp hr' with hmem | hmem
        · exact hpassed r' hmem
        · rw [mem_singleton.mp hmem]
          exact not_lt.mp hstop

theorem locate_skip (hpassed : ∀ r ∈ pre, r.2 ≤ x) :
    locate x cur (pre ++ post) = locate x (cur + pre.length) post := by
  induction pre generalizing cur with
  | nil => rfl
  | cons r pre ih =>
    have hr := hpassed r mem_cons_self
    rw [cons_append, locate, if_neg hr.not_gt,
      ih fun r' hr' => hpassed r' (mem_cons_of_mem r hr'), length_cons]
    congr 1
    omega

end RangeList

end DragonFly
