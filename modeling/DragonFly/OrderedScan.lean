import Mathlib

/-!
# Scans over ordered lists

A scan is what lies ahead of a position in an ordered list, with a flag that
says whether the element at the position has been consumed.  Moving a scan
toward a stop passes the elements below it.  Two scans that agree below a bound
keep agreeing below it while they move.
-/

namespace DragonFly

open List

section List

variable {α : Type*} [LinearOrder α]

theorem takeWhile_lt_eq_filter {l : List α} (stop : α) (hsorted : l.Pairwise (· < ·)) :
    l.takeWhile (· < stop) = l.filter (· < stop) := by
  induction l with
  | nil => rfl
  | cons x l ih =>
    rcases pairwise_cons.mp hsorted with ⟨hx, hl⟩
    by_cases hstop : x < stop
    · simp [hstop, ih hl]
    · have hnone : l.filter (· < stop) = [] := by
        apply filter_eq_nil_iff.mpr
        intro y hy
        simpa using (not_lt.mp hstop).trans (hx y hy).le
      simp [hstop, hnone]

theorem dropWhile_lt_eq_filter {l : List α} (stop : α) (hsorted : l.Pairwise (· < ·)) :
    l.dropWhile (· < stop) = l.filter (stop ≤ ·) := by
  induction l with
  | nil => rfl
  | cons x l ih =>
    rcases pairwise_cons.mp hsorted with ⟨hx, hl⟩
    by_cases hstop : x < stop
    · simp [hstop, not_le.mpr hstop, ih hl]
    · have hall : l.filter (stop ≤ ·) = l := by
        apply filter_eq_self.mpr
        intro y hy
        simpa using (not_lt.mp hstop).trans (hx y hy).le
      simp [hstop, not_lt.mp hstop, hall]

theorem tail_filter_lt {l : List α} (bound : α) (hsorted : l.Pairwise (· < ·)) :
    l.tail.filter (· < bound) = (l.filter (· < bound)).tail := by
  cases l with
  | nil => rfl
  | cons x l =>
    rcases pairwise_cons.mp hsorted with ⟨hx, hl⟩
    by_cases hbound : x < bound
    · simp [hbound]
    · have hnone : l.filter (· < bound) = [] := by
        apply filter_eq_nil_iff.mpr
        intro y hy
        simpa using (not_lt.mp hbound).trans (hx y hy).le
      simp [hbound, hnone]

theorem dropWhile_eq_cons {keys : List α} (hsorted : keys.Pairwise (· < ·)) (hmem : key ∈ keys) :
    ∃ rest, keys.dropWhile (· < key) = key :: rest := by
  have hahead : key ∈ keys.dropWhile (· < key) := by
    rw [dropWhile_lt_eq_filter key hsorted]
    simpa using hmem
  cases hrest : keys.dropWhile (· < key) with
  | nil => simp [hrest] at hahead
  | cons head rest =>
    have hhead : head ∈ keys.filter (key ≤ ·) := by
      rw [← dropWhile_lt_eq_filter key hsorted, hrest]
      exact mem_cons_self
    have hle : key ≤ head := by simpa using (mem_filter.mp hhead).2
    rw [hrest] at hahead
    rcases mem_cons.mp hahead with rfl | hlater
    · exact ⟨rest, rfl⟩
    · have hcons : (head :: rest).Pairwise (· < ·) := by
        rw [← hrest]
        exact hsorted.sublist (dropWhile_sublist _)
      exact absurd ((pairwise_cons.mp hcons).1 key hlater) (not_lt.mpr hle)

def AgreeBelow (bound : α) (l l' : List α) : Prop :=
  l.filter (· < bound) = l'.filter (· < bound)

theorem agreeBelow_of_mem_iff {bound : α} (hsorted : l.Pairwise (· < ·))
    (hsorted' : l'.Pairwise (· < ·)) (hmem : ∀ x, x < bound → (x ∈ l ↔ x ∈ l')) :
    AgreeBelow bound l l' := by
  apply (hsorted.filter _).eq_of_mem_iff (hsorted'.filter _)
  intro x
  simp only [mem_filter, decide_eq_true_eq]
  constructor
  · exact fun h => ⟨(hmem x h.2).mp h.1, h.2⟩
  · exact fun h => ⟨(hmem x h.2).mpr h.1, h.2⟩

namespace AgreeBelow

variable {l l' : List α} {bound : α}

variable (hagree : AgreeBelow bound l l')
include hagree

theorem tail (hsorted : l.Pairwise (· < ·)) (hsorted' : l'.Pairwise (· < ·)) :
    AgreeBelow bound l.tail l'.tail := by
  unfold AgreeBelow
  rw [tail_filter_lt bound hsorted, tail_filter_lt bound hsorted', hagree]

theorem dropWhile (stop : α) (hsorted : l.Pairwise (· < ·)) (hsorted' : l'.Pairwise (· < ·)) :
    AgreeBelow bound (l.dropWhile (· < stop)) (l'.dropWhile (· < stop)) := by
  unfold AgreeBelow
  rw [dropWhile_lt_eq_filter stop hsorted, dropWhile_lt_eq_filter stop hsorted',
    filter_comm, hagree, filter_comm]

theorem takeWhile (hsorted : l.Pairwise (· < ·)) (hsorted' : l'.Pairwise (· < ·)) :
    l.takeWhile (· < bound) = l'.takeWhile (· < bound) := by
  rw [takeWhile_lt_eq_filter bound hsorted, takeWhile_lt_eq_filter bound hsorted', hagree]

end AgreeBelow

end List

structure KeyScan (α : Type*) where
  ahead : List α
  eaten : Bool

namespace KeyScan

variable {α : Type*} [LinearOrder α]

def next (scan : KeyScan α) : List α :=
  if scan.eaten then scan.ahead.tail else scan.ahead

def passed (scan : KeyScan α) (stop : α) : List α :=
  scan.next.takeWhile (· < stop)

def toward (scan : KeyScan α) (stop : α) : KeyScan α :=
  ⟨scan.next.dropWhile (· < stop), scan.eaten || !(scan.passed stop).isEmpty⟩

def seek (keys : List α) (key : α) (eaten : Bool) : KeyScan α :=
  ⟨keys.dropWhile (· < key), eaten⟩

omit [LinearOrder α] in
theorem next_sublist (scan : KeyScan α) : scan.next.Sublist scan.ahead := by
  unfold next
  split_ifs
  · exact tail_sublist _
  · exact List.Sublist.refl _

theorem passed_sublist (scan : KeyScan α) (stop : α) : (scan.passed stop).Sublist scan.ahead :=
  (takeWhile_sublist _).trans scan.next_sublist

theorem lt_of_mem_passed {scan : KeyScan α} (hmem : key ∈ scan.passed stop) : key < stop := by
  simpa using List.all_eq_true.mp List.all_takeWhile key hmem

theorem mem_seek_ahead {keys : List α} {key x : α} {eaten : Bool}
    (hsorted : keys.Pairwise (· < ·)) :
    x ∈ (seek keys key eaten).ahead ↔ x ∈ keys ∧ key ≤ x := by
  rw [seek, dropWhile_lt_eq_filter key hsorted]
  simp

/-- Nothing was passed and the flag was clear, so everything ahead is at the stop or after. -/
theorem toward_of_not_eaten {scan : KeyScan α} (heaten : (scan.toward stop).eaten = false) :
    scan.eaten = false ∧ scan.passed stop = [] ∧ (scan.toward stop).ahead = scan.ahead := by
  simp only [toward, Bool.or_eq_false_iff, Bool.not_eq_false', List.isEmpty_iff] at heaten
  refine ⟨heaten.1, heaten.2, ?_⟩
  have hsplit : scan.passed stop ++ scan.next.dropWhile (· < stop) = scan.next :=
    takeWhile_append_dropWhile
  rw [heaten.2, List.nil_append] at hsplit
  have hnext : scan.next = scan.ahead := by simp [next, heaten.1]
  rw [toward, hsplit, hnext]

theorem le_of_passed_eq_nil {scan : KeyScan α} (hsorted : scan.ahead.Pairwise (· < ·))
    (heaten : scan.eaten = false) (hpassed : scan.passed stop = []) (hmem : key ∈ scan.ahead) :
    stop ≤ key := by
  have hnext : scan.next = scan.ahead := by simp [next, heaten]
  rw [passed, hnext, takeWhile_lt_eq_filter stop hsorted] at hpassed
  simpa using filter_eq_nil_iff.mp hpassed key hmem

theorem passed_cons_clear (rest : List α) (hkey : key < stop) :
    KeyScan.passed ⟨key :: rest, false⟩ stop = key :: KeyScan.passed ⟨key :: rest, true⟩ stop := by
  simp [passed, next, hkey]

theorem toward_cons_clear (rest : List α) (hkey : key < stop) :
    KeyScan.toward ⟨key :: rest, false⟩ stop = KeyScan.toward ⟨key :: rest, true⟩ stop := by
  simp [toward, passed, next, hkey]

theorem toward_eq_self {scan : KeyScan α} (heaten : scan.eaten = false)
    (hahead : ∀ key ∈ scan.ahead, stop ≤ key) : scan.toward stop = scan := by
  have hnext : scan.next = scan.ahead := by simp [next, heaten]
  have hpassed : scan.passed stop = [] := by
    rw [passed, hnext]
    cases hlist : scan.ahead with
    | nil => rfl
    | cons key rest =>
      have hle : stop ≤ key := hahead key (by simp [hlist])
      simp [hle]
  have hdrop : scan.next.dropWhile (· < stop) = scan.ahead := by
    have hsplit : scan.passed stop ++ scan.next.dropWhile (· < stop) = scan.next :=
      takeWhile_append_dropWhile
    rw [hpassed, nil_append] at hsplit
    exact hsplit.trans hnext
  rw [toward, hdrop, hpassed]
  simp

theorem mem_passed {scan : KeyScan α} (hsorted : scan.ahead.Pairwise (· < ·))
    (heaten : scan.eaten = false) (hmem : key ∈ scan.ahead) (hkey : key < stop) :
    key ∈ scan.passed stop := by
  have hnext : scan.next = scan.ahead := by simp [next, heaten]
  rw [passed, hnext, takeWhile_lt_eq_filter stop hsorted]
  simp [hmem, hkey]

section Agreement

variable {first second : KeyScan α}

theorem passed_of_agree (hfirst : first.ahead.Pairwise (· < ·))
    (hsecond : second.ahead.Pairwise (· < ·)) (heaten : first.eaten = second.eaten)
    (hagree : AgreeBelow stop first.ahead second.ahead) :
    first.passed stop = second.passed stop := by
  unfold passed next
  rw [heaten]
  split_ifs
  · exact (hagree.tail hfirst hsecond).takeWhile (hfirst.sublist (tail_sublist _))
      (hsecond.sublist (tail_sublist _))
  · exact hagree.takeWhile hfirst hsecond

theorem toward_of_agree (stop : α) (hfirst : first.ahead.Pairwise (· < ·))
    (hsecond : second.ahead.Pairwise (· < ·)) (heaten : first.eaten = second.eaten)
    (hagree : AgreeBelow bound first.ahead second.ahead) :
    AgreeBelow bound (first.toward stop).ahead (second.toward stop).ahead := by
  unfold toward next
  rw [heaten]
  split_ifs
  · exact (hagree.tail hfirst hsecond).dropWhile stop (hfirst.sublist (tail_sublist _))
      (hsecond.sublist (tail_sublist _))
  · exact hagree.dropWhile stop hfirst hsecond

/-- The second scan is level with the first, or has yet to pass the element the
first one has consumed. -/
def Follows (first second : KeyScan α) (late : α → Prop) : Prop :=
  first.eaten = second.eaten ∨
    ∃ key rest rest', first = ⟨key :: rest, true⟩ ∧ second = ⟨key :: rest', false⟩ ∧ late key

theorem Follows.toward (hfollows : Follows first second late)
    (hfirst : first.ahead.Pairwise (· < ·)) (hsecond : second.ahead.Pairwise (· < ·))
    (hlate : ∀ key, late key → key < stop) (hagree : AgreeBelow stop first.ahead second.ahead) :
    (∀ key ∈ second.passed stop, key ∈ first.passed stop ∨ late key) ∧
      (first.toward stop).eaten = (second.toward stop).eaten ∧
      ∀ bound, AgreeBelow bound first.ahead second.ahead →
        AgreeBelow bound (first.toward stop).ahead (second.toward stop).ahead := by
  rcases hfollows with heaten | ⟨key, rest, rest', rfl, rfl, hkey⟩
  · have hpassed := passed_of_agree hfirst hsecond heaten hagree
    refine ⟨fun key hkey => .inl (hpassed ▸ hkey), ?_, ?_⟩
    · simp only [KeyScan.toward, hpassed, heaten]
    · exact fun bound hbound => toward_of_agree stop hfirst hsecond heaten hbound
  · have hstop := hlate key hkey
    -- for the move the second scan might as well have consumed the late element
    have hpassed := @passed_of_agree α _ ⟨key :: rest, true⟩ ⟨key :: rest', true⟩ stop
      hfirst hsecond rfl hagree
    rw [passed_cons_clear rest' hstop, toward_cons_clear rest' hstop]
    refine ⟨?_, by simp only [KeyScan.toward, hpassed], ?_⟩
    · intro found hfound
      rcases mem_cons.mp hfound with rfl | hfound
      · exact .inr hkey
      · exact .inl (hpassed ▸ hfound)
    · exact fun bound hbound => @toward_of_agree α _ ⟨key :: rest, true⟩ ⟨key :: rest', true⟩
        bound stop hfirst hsecond rfl hbound

theorem toward_eaten_of_mem {scan : KeyScan α} (hsorted : scan.ahead.Pairwise (· < ·))
    (hmem : key ∈ scan.ahead) (hkey : key < stop) : (scan.toward stop).eaten = true := by
  by_contra hclear
  obtain ⟨heaten, hpassed, -⟩ := toward_of_not_eaten (Bool.not_eq_true _ ▸ hclear)
  exact absurd (le_of_passed_eq_nil hsorted heaten hpassed hmem) (not_le.mpr hkey)

end Agreement

end KeyScan

end DragonFly
