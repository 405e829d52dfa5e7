import Mathlib

/-!
# Maps made of intervals

A list of closed intervals in increasing order, each with a value, is a partial
map on the integers.  Writing a value on an interval cuts the list on both sides
of it, and fusing neighbours that carry the same value changes nothing.
-/

namespace DragonFly

open List

structure Interval (α : Type) where
  start : ℤ
  stop : ℤ
  value : α
  deriving DecidableEq

namespace IntervalMap

variable {α : Type}

/-- In increasing order and disjoint, and none is empty. -/
structure Ordered (xs : List (Interval α)) : Prop where
  apart : xs.Pairwise fun a b => a.stop < b.start
  proper : ∀ a ∈ xs, a.start ≤ a.stop

def At (xs : List (Interval α)) (x : ℤ) (v : α) : Prop :=
  ∃ a ∈ xs, a.start ≤ x ∧ x ≤ a.stop ∧ a.value = v

def lookup (xs : List (Interval α)) (x : ℤ) : Option α :=
  (xs.find? fun a => a.start ≤ x ∧ x ≤ a.stop).map Interval.value

def below (s : ℤ) (a : Interval α) : List (Interval α) :=
  if a.start < s then [{ a with stop := min a.stop (s - 1) }] else []

def above (e : ℤ) (a : Interval α) : List (Interval α) :=
  if e < a.stop then [{ a with start := max a.start (e + 1) }] else []

/-- The map with `mid` in the place of everything from `s` to `e`. -/
def splice (s e : ℤ) (mid xs : List (Interval α)) : List (Interval α) :=
  xs.flatMap (below s) ++ mid ++ xs.flatMap (above e)

/-- Neighbours with the same value have been fused. -/
inductive Fused (xs : List (Interval α)) : List (Interval α) → Prop
  | refl : Fused xs xs
  | fuse {a b : Interval α} (h : Fused xs (init ++ a :: b :: rest)) (hmeet : a.stop + 1 = b.start)
      (hvalue : a.value = b.value) :
      Fused xs (init ++ { a with stop := b.stop } :: rest)

/-! ## Looking up -/

variable {v : α} {x s e : ℤ} {xs ys : List (Interval α)} {a : Interval α}

theorem at_append : At (xs ++ ys) x v ↔ At xs x v ∨ At ys x v := by
  simp only [At, mem_append, or_and_right, exists_or]

theorem at_cons : At (a :: xs) x v ↔ (a.start ≤ x ∧ x ≤ a.stop ∧ a.value = v) ∨ At xs x v := by
  simp only [At, mem_cons, exists_eq_or_imp]

theorem not_at_nil : ¬At ([] : List (Interval α)) x v := by
  simp [At]

theorem Ordered.eq_of_mem (h : Ordered xs) (ha : a ∈ xs) (hb : b ∈ xs)
    (hax : a.start ≤ x ∧ x ≤ a.stop) (hbx : b.start ≤ x ∧ x ≤ b.stop) : a = b := by
  by_contra hne
  have hpairs : xs.Pairwise fun a b =>
      ¬((a.start ≤ x ∧ x ≤ a.stop) ∧ b.start ≤ x ∧ x ≤ b.stop) := by
    apply h.apart.imp
    intro a b hab hboth
    omega
  have hsymm : Std.Symm fun a b : Interval α =>
      ¬((a.start ≤ x ∧ x ≤ a.stop) ∧ b.start ≤ x ∧ x ≤ b.stop) :=
    ⟨fun a b hab hba => hab ⟨hba.2, hba.1⟩⟩
  exact hpairs.forall ha hb hne ⟨hax, hbx⟩

theorem lookup_eq_some (h : Ordered xs) : lookup xs x = some v ↔ At xs x v := by
  unfold lookup
  rw [Option.map_eq_some_iff]
  constructor
  · rintro ⟨a, hfind, rfl⟩
    have hcover := find?_some hfind
    rw [decide_eq_true_eq] at hcover
    exact ⟨a, mem_of_find?_eq_some hfind, hcover.1, hcover.2, rfl⟩
  · rintro ⟨a, ha, hle, hge, rfl⟩
    cases hfind : xs.find? fun a => a.start ≤ x ∧ x ≤ a.stop with
    | none =>
      have hnone := find?_eq_none.mp hfind a ha
      rw [decide_eq_true_eq] at hnone
      exact absurd ⟨hle, hge⟩ hnone
    | some b =>
      have hcover := find?_some hfind
      rw [decide_eq_true_eq] at hcover
      have hsame := h.eq_of_mem (mem_of_find?_eq_some hfind) ha hcover ⟨hle, hge⟩
      exact ⟨b, rfl, by rw [hsame]⟩

/-! ## Cutting -/

theorem below_of_lt (h : a.start < s) : below s a = [{ a with stop := min a.stop (s - 1) }] :=
  if_pos h

theorem below_of_le (h : s ≤ a.start) : below s a = [] :=
  if_neg (not_lt.mpr h)

theorem above_of_lt (h : e < a.stop) : above e a = [{ a with start := max a.start (e + 1) }] :=
  if_pos h

theorem above_of_le (h : a.stop ≤ e) : above e a = [] :=
  if_neg (not_lt.mpr h)

theorem at_below : At (xs.flatMap (below s)) x v ↔ x < s ∧ At xs x v := by
  simp only [At, mem_flatMap, below]
  constructor
  · rintro ⟨a, ⟨b, hb, hab⟩, hle, hge, hv⟩
    split_ifs at hab with hstart
    · rw [mem_singleton] at hab
      subst hab
      simp only at hle hge
      exact ⟨by omega, b, hb, hle, by omega, hv⟩
    · simp at hab
  · rintro ⟨hx, b, hb, hle, hge, hv⟩
    refine ⟨{ b with stop := min b.stop (s - 1) }, ⟨b, hb, ?_⟩, hle, ?_, hv⟩
    · rw [if_pos (by omega)]
      exact mem_singleton_self _
    · simp only
      omega

theorem at_above : At (xs.flatMap (above e)) x v ↔ e < x ∧ At xs x v := by
  simp only [At, mem_flatMap, above]
  constructor
  · rintro ⟨a, ⟨b, hb, hab⟩, hle, hge, hv⟩
    split_ifs at hab with hstop
    · rw [mem_singleton] at hab
      subst hab
      simp only at hle hge
      exact ⟨by omega, b, hb, by omega, hge, hv⟩
    · simp at hab
  · rintro ⟨hx, b, hb, hle, hge, hv⟩
    refine ⟨{ b with start := max b.start (e + 1) }, ⟨b, hb, ?_⟩, ?_, hge, hv⟩
    · rw [if_pos (by omega)]
      exact mem_singleton_self _
    · simp only
      omega

theorem Ordered.flatMap (h : Ordered xs) {f : Interval α → List (Interval α)}
    (hf : ∀ a, f a = [] ∨ ∃ b, f a = [b] ∧ a.start ≤ b.start ∧
      b.stop ≤ a.stop ∧ (a.start ≤ a.stop → b.start ≤ b.stop)) : Ordered (xs.flatMap f) := by
  constructor
  · rw [pairwise_flatMap]
    constructor
    · intro a _
      rcases hf a with hnil | ⟨b, hb, -⟩
      · rw [hnil]
        exact .nil
      · rw [hb]
        exact pairwise_singleton _ _
    · apply h.apart.imp
      intro a b hab x hx y hy
      rcases hf a with hnil | ⟨a', ha, hastart, hastop, -⟩
      · rw [hnil] at hx
        cases hx
      · rcases hf b with hnil | ⟨b', hb, hbstart, hbstop, -⟩
        · rw [hnil] at hy
          cases hy
        · rw [ha, mem_singleton] at hx
          rw [hb, mem_singleton] at hy
          subst hx hy
          omega
  · intro b hb
    rw [mem_flatMap] at hb
    obtain ⟨a, ha, hb⟩ := hb
    rcases hf a with hnil | ⟨b', hb', -, -, hproper⟩
    · rw [hnil] at hb
      cases hb
    · rw [hb', mem_singleton] at hb
      subst hb
      exact hproper (h.proper a ha)

theorem below_cases (s : ℤ) (a : Interval α) :
    below s a = [] ∨ ∃ b, below s a = [b] ∧ a.start ≤ b.start ∧
      b.stop ≤ a.stop ∧ (a.start ≤ a.stop → b.start ≤ b.stop) := by
  unfold below
  split_ifs with hstart
  · right
    refine ⟨_, rfl, le_rfl, min_le_left _ _, ?_⟩
    intro hproper
    simp only
    omega
  · exact Or.inl rfl

theorem above_cases (e : ℤ) (a : Interval α) :
    above e a = [] ∨ ∃ b, above e a = [b] ∧ a.start ≤ b.start ∧
      b.stop ≤ a.stop ∧ (a.start ≤ a.stop → b.start ≤ b.stop) := by
  unfold above
  split_ifs with hstop
  · right
    refine ⟨_, rfl, le_max_left _ _, le_rfl, ?_⟩
    intro hproper
    simp only
    omega
  · exact Or.inl rfl

theorem stop_lt_of_mem_below (ha : a ∈ xs.flatMap (below s)) : a.stop < s := by
  rw [mem_flatMap] at ha
  obtain ⟨b, -, hb⟩ := ha
  unfold below at hb
  split_ifs at hb
  · rw [mem_singleton] at hb
    subst hb
    simp only
    omega
  · cases hb

theorem lt_start_of_mem_above (ha : a ∈ xs.flatMap (above e)) : e < a.start := by
  rw [mem_flatMap] at ha
  obtain ⟨b, -, hb⟩ := ha
  unfold above at hb
  split_ifs at hb
  · rw [mem_singleton] at hb
    subst hb
    simp only
    omega
  · cases hb

theorem Ordered.splice {mid : List (Interval α)} (h : Ordered xs) (hmid : Ordered mid) (hse : s ≤ e)
    (hin : ∀ a ∈ mid, s ≤ a.start ∧ a.stop ≤ e) : Ordered (splice s e mid xs) := by
  have hbelow : Ordered (xs.flatMap (below s)) := h.flatMap (below_cases s)
  have habove : Ordered (xs.flatMap (above e)) := h.flatMap (above_cases e)
  unfold IntervalMap.splice
  constructor
  · rw [pairwise_append, pairwise_append]
    refine ⟨⟨hbelow.apart, hmid.apart, ?_⟩, habove.apart, ?_⟩
    · intro a ha b hb
      have hstop := stop_lt_of_mem_below ha
      have hstart := (hin b hb).1
      omega
    · intro a ha b hb
      have hstart := lt_start_of_mem_above hb
      rcases mem_append.mp ha with ha | ha
      · have hstop := stop_lt_of_mem_below ha
        omega
      · have hstop := (hin a ha).2
        omega
  · intro a ha
    rcases mem_append.mp ha with ha | ha
    · rcases mem_append.mp ha with ha | ha
      · exact hbelow.proper a ha
      · exact hmid.proper a ha
    · exact habove.proper a ha

theorem at_splice : At (splice s e mid xs) x v ↔ At mid x v ∨ ((x < s ∨ e < x) ∧ At xs x v) := by
  unfold splice
  rw [at_append, at_append, at_below, at_above]
  tauto

theorem splice_append (hse : s ≤ e) (mid : List (Interval α))
    (hpre : ∀ a ∈ pre, a.start ≤ a.stop ∧ a.stop < s)
    (hpost : ∀ a ∈ post, a.start ≤ a.stop ∧ e < a.start) :
    splice s e mid (pre ++ ms ++ post) =
      pre ++ ms.flatMap (below s) ++ mid ++ ms.flatMap (above e) ++ post := by
  have hbelowPre : pre.flatMap (below s) = pre := by
    rw [flatMap_congr (g := fun a => [a]), flatMap_singleton']
    intro a ha
    have hbounds := hpre a ha
    rw [below_of_lt (by omega), min_eq_left (by omega)]
  have habovePre : pre.flatMap (above e) = [] := by
    rw [flatMap_eq_nil_iff]
    intro a ha
    have hbounds := hpre a ha
    exact above_of_le (by omega)
  have hbelowPost : post.flatMap (below s) = [] := by
    rw [flatMap_eq_nil_iff]
    intro a ha
    have hbounds := hpost a ha
    exact below_of_le (by omega)
  have habovePost : post.flatMap (above e) = post := by
    rw [flatMap_congr (g := fun a => [a]), flatMap_singleton']
    intro a ha
    have hbounds := hpost a ha
    rw [above_of_lt (by omega), max_eq_left (by omega)]
  unfold splice
  rw [flatMap_append, flatMap_append, flatMap_append,
    flatMap_append, hbelowPre, habovePre, hbelowPost, habovePost]
  simp

/-! ## Fusing -/

theorem Fused.trans (h : Fused xs ys) (h' : Fused ys zs) : Fused xs zs := by
  induction h' with
  | refl => exact h
  | fuse _ hmeet hvalue ih => exact .fuse ih hmeet hvalue

theorem Fused.append_right (h : Fused xs ys) (zs : List (Interval α)) :
    Fused (xs ++ zs) (ys ++ zs) := by
  induction h with
  | refl => exact .refl
  | @fuse init rest a b h hmeet hvalue ih =>
    rw [append_assoc] at ih ⊢
    exact .fuse ih hmeet hvalue

theorem Fused.at_iff (h : Fused xs ys) (hordered : Ordered xs) :
    Ordered ys ∧ ∀ x v, At ys x v ↔ At xs x v := by
  induction h with
  | refl => exact ⟨hordered, fun _ _ => Iff.rfl⟩
  | @fuse init rest a b h hmeet hvalue ih =>
    obtain ⟨hold, hat⟩ := ih
    have ha : a.start ≤ a.stop := hold.proper a (by simp)
    have hb : b.start ≤ b.stop := hold.proper b (by simp)
    have hpairs := hold.apart
    rw [pairwise_append, pairwise_cons, pairwise_cons] at hpairs
    obtain ⟨hinit, ⟨hafter, hbefore, hrest⟩, hcross⟩ := hpairs
    constructor
    · constructor
      · rw [pairwise_append, pairwise_cons]
        refine ⟨hinit, ⟨?_, hrest⟩, ?_⟩
        · exact fun c hc => hbefore c hc
        · intro c hc d hd
          rcases mem_cons.mp hd with rfl | hd
          · exact hcross c hc a (by simp)
          · exact hcross c hc d (by simp [hd])
      · intro c hc
        rcases mem_append.mp hc with hc | hc
        · exact hold.proper c (by simp [hc])
        · rcases mem_cons.mp hc with rfl | hc
          · simp only
            omega
          · exact hold.proper c (by simp [hc])
    · intro x v
      rw [← hat, at_append, at_append, at_cons, at_cons, at_cons]
      apply or_congr Iff.rfl
      simp only
      rw [← or_assoc]
      apply or_congr _ Iff.rfl
      rw [← hvalue]
      constructor
      · rintro ⟨hle, hge, hv⟩
        by_cases hx : x ≤ a.stop
        · exact Or.inl ⟨hle, hx, hv⟩
        · exact Or.inr ⟨by omega, hge, hv⟩
      · rintro (⟨hle, hge, hv⟩ | ⟨hle, hge, hv⟩)
        · exact ⟨hle, by omega, hv⟩
        · exact ⟨by omega, hge, hv⟩

end IntervalMap

end DragonFly
