import DragonFly.LinkedRing
import DragonFly.MutexModel

/-!
# The queue of a mutex

The links that wait for a mutex form a ring.  Only the thread that has set `MTX_EXLINK`
touches it, and the stores that put a link in or take one out are followed to their end
from wherever that thread stands.
-/

namespace DragonFly.Mutex.Queue

open Function Option

variable {T : Type}

/-- The links in the ring are those that satisfy `L`. -/
def Fits (q : Wires T) (L : T → Prop) : Prop :=
  ∃ l, q.Spells l ∧ ∀ w, w ∈ l ↔ L w

variable {q : Wires T} {L : T → Prop}

theorem Fits.congr (h : Fits q L) (hL : ∀ w, L w ↔ L' w) : Fits q L' := by
  obtain ⟨l, hspells, hmem⟩ := h
  exact ⟨l, hspells, fun w => (hmem w).trans (hL w)⟩

theorem Fits.head_ne_none (h : Fits q L) (hw : L w) : q.head ≠ none := by
  obtain ⟨l, hspells, hmem⟩ := h
  intro hnone
  have hwl := (hmem w).mpr hw
  rw [hspells.eq_nil hnone] at hwl
  cases hwl

theorem Fits.head_mem (h : Fits q L) (hw : q.head = some w) : L w := by
  obtain ⟨l, hspells, hmem⟩ := h
  rw [hspells.head] at hw
  exact (hmem w).mp (List.mem_of_mem_head? hw)

section Stores

variable [DecidableEq T]

/-- The stores of `unlinkStep` to the ring. -/
def unlinkWires (w : T) (q : Wires T) : UnlinkPc → Option (Wires T × (UnlinkPc ⊕ Bool))
  | .test => if q.next w = some w then some (q, .inl .alone) else some (q, .inl .head)
  | .alone => some ({ q with head := none }, .inr true)
  | .head => some ({ q with head := q.next w }, .inl .nextPrev)
  | .nextPrev =>
    (q.next w).map fun n =>
      ({ q with prev := update q.prev n (q.prev w) }, .inl .prevNext)
  | .prevNext =>
    (q.prev w).map fun p =>
      ({ q with next := update q.next p (q.next w) }, .inr false)

inductive InsertPc where
  | testQueue
  | setNext
  | setPrev
  | setNextPrev
  | setPrevNext
  | setNextSelf
  | setPrevSelf
  | setHead

/-- The stores of `__mtx_lock_ex` that put the link of `t` into the ring. -/
def insertWires (t : T) (q : Wires T) : InsertPc → Option (Wires T × (InsertPc ⊕ Unit))
  | .testQueue =>
    if q.head = none then some (q, .inl .setNextSelf) else some (q, .inl .setNext)
  | .setNext => some ({ q with next := update q.next t q.head }, .inl .setPrev)
  | .setPrev =>
    (q.next t).map fun n =>
      ({ q with prev := update q.prev t (q.prev n) }, .inl .setNextPrev)
  | .setNextPrev =>
    (q.next t).map fun n =>
      ({ q with prev := update q.prev n (some t) }, .inl .setPrevNext)
  | .setPrevNext =>
    (q.prev t).map fun p =>
      ({ q with next := update q.next p (some t) }, .inr ())
  | .setNextSelf =>
    some ({ q with next := update q.next t (some t) }, .inl .setPrevSelf)
  | .setPrevSelf =>
    some ({ q with prev := update q.prev t (some t) }, .inl .setHead)
  | .setHead => some ({ q with head := some t }, .inr ())

/-- The ring that will be left when `w` is out. -/
def Unlinks (q : Wires T) (L : T → Prop) (w : T) (p : UnlinkPc) : Prop :=
  q.head ≠ none ∧ ∃ q' alone, Ends (unlinkWires w) q p q' alone ∧
    Fits q' (fun u => L u ∧ u ≠ w) ∧ (alone = true → q'.head = none)

/-- The ring that will be left when `t` is in. -/
def Inserts (q : Wires T) (L : T → Prop) (t : T) (p : InsertPc) : Prop :=
  ∃ q', Ends (insertWires t) q p q' () ∧ Fits q' L

theorem Fits.unlinks (h : Fits q L) (hw : L w) : Unlinks q L w .test := by
  refine ⟨h.head_ne_none hw, ?_⟩
  obtain ⟨l, hspells, hmem⟩ := h
  obtain ⟨r, hsame, hnodup, hcircle⟩ := hspells.rotate ((hmem w).mpr hw)
  have hrest : ∀ u, u ∈ r ↔ L u ∧ u ≠ w := by
    intro u
    rw [← hmem u, ← hsame u, List.mem_cons]
    constructor
    · intro hu
      exact ⟨.inr hu, fun heq => (List.nodup_cons.mp hnodup).1 (heq ▸ hu)⟩
    · rintro ⟨hu | hu, hne⟩
      · exact absurd hu hne
      · exact hu
  by_cases hr : r = []
  · have halone : q.next w = some w := (Wires.alone_of_circle hcircle hnodup).mpr hr
    refine ⟨{ q with head := none }, true, ?_, ⟨r, ?_, hrest⟩, fun _ => rfl⟩
    · have htest : unlinkWires w q .test = some (q, .inl .alone) := if_pos halone
      exact .go htest (.stop rfl)
    · rw [hr]
      exact .nil rfl
  · have hothers : q.next w ≠ some w :=
      fun heq => hr ((Wires.alone_of_circle hcircle hnodup).mp heq)
    obtain ⟨b, z, hnext, hprev, hbw, hzw, hspells'⟩ := Wires.spells_without hcircle hnodup hr
    refine ⟨_, false, ?_, ⟨r, hspells', hrest⟩, nofun⟩
    have htest : unlinkWires w q .test = some (q, .inl .head) := if_neg hothers
    have hmove : unlinkWires w q .head = some (⟨some b, q.next, q.prev⟩, .inl .nextPrev) := by
      simp only [unlinkWires, hnext]
    have hback : unlinkWires w ⟨some b, q.next, q.prev⟩ .nextPrev =
        some (⟨some b, q.next, update q.prev b (some z)⟩, .inl .prevNext) := by
      simp only [unlinkWires, hnext, hprev, map_some]
    apply Ends.go htest (.go hmove (.go hback (.stop _)))
    simp only [unlinkWires, update_of_ne hbw.symm, hprev, hnext, map_some]

theorem Fits.inserts (h : Fits q (fun u => L u ∧ u ≠ t)) (ht : L t) : Inserts q L t .testQueue := by
  obtain ⟨l, hspells, hmem⟩ := h
  have hfresh : t ∉ l := fun htl => ((hmem t).mp htl).2 rfl
  have hafter : ∀ u, u ∈ l ++ [t] ↔ L u := by
    intro u
    rw [List.mem_append, List.mem_singleton, hmem u]
    constructor
    · rintro (⟨hu, _⟩ | rfl)
      · exact hu
      · exact ht
    · intro hu
      by_cases heq : u = t
      · exact .inr heq
      · exact .inl ⟨hu, heq⟩
  cases l with
  | nil =>
    have hhead : q.head = none := hspells.head
    refine ⟨_, ?_, ⟨[t], q.spells_singleton t, hafter⟩⟩
    have htest : insertWires t q .testQueue = some (q, .inl .setNextSelf) := if_pos hhead
    exact .go htest (.go rfl (.go rfl (.stop rfl)))
  | cons a l =>
    have hhead : q.head = some a := hspells.head
    obtain ⟨z, hprev, hat, hzt, hspells'⟩ := Wires.spells_with hspells hfresh
    refine ⟨_, ?_, ⟨_, hspells', hafter⟩⟩
    have htest : insertWires t q .testQueue = some (q, .inl .setNext) := by
      rw [insertWires, if_neg (by rw [hhead]; exact some_ne_none a)]
    have hsetNext : insertWires t q .setNext =
        some (⟨some a, update q.next t (some a), q.prev⟩, .inl .setPrev) := by
      simp only [insertWires, hhead]
    have hsetPrev : insertWires t ⟨some a, update q.next t (some a), q.prev⟩ .setPrev =
          some (⟨some a, update q.next t (some a),
            update q.prev t (some z)⟩, .inl .setNextPrev) := by
      simp only [insertWires, update_self, map_some, hprev]
    have hsetNextPrev : insertWires t ⟨some a, update q.next t (some a),
            update q.prev t (some z)⟩ .setNextPrev =
          some (⟨some a, update q.next t (some a), update (update q.prev t (some z)) a (some t)⟩,
            .inl .setPrevNext) := by
      simp only [insertWires, update_self, map_some]
    apply Ends.go htest (.go hsetNext (.go hsetPrev (.go hsetNextPrev (.stop _))))
    simp only [insertWires, update_of_ne hat.symm, update_self, map_some]

variable {q' : Wires T} {p : UnlinkPc}

theorem Unlinks.go (h : Unlinks q L w p) (hstep : unlinkWires w q p = some (q', .inl p')) :
    Unlinks q' L w p' := by
  obtain ⟨hhead, qend, alone, hends, hfits⟩ := h
  have hrest := hends.rest hstep
  refine ⟨?_, qend, alone, hrest, hfits⟩
  cases p with
  | test =>
    rw [unlinkWires] at hstep
    split_ifs at hstep
    · cases hstep
      exact hhead
    · cases hstep
      exact hhead
  | alone => cases hstep
  | prevNext =>
    simp only [unlinkWires, map_eq_some_iff] at hstep
    obtain ⟨n, _, heq⟩ := hstep
    cases heq
  | head =>
    cases hstep
    have hnext := hrest.isSome
    intro hnone
    exact hnext (map_eq_none_iff.mpr hnone)
  | nextPrev =>
    simp only [unlinkWires, map_eq_some_iff] at hstep
    obtain ⟨n, _, heq⟩ := hstep
    cases heq
    exact hhead

theorem Unlinks.last (h : Unlinks q L w p) (hstep : unlinkWires w q p = some (q', .inr alone)) :
    Fits q' (fun u => L u ∧ u ≠ w) ∧ (alone = true → q'.head = none) := by
  obtain ⟨_, qend, alone', hends, hfits⟩ := h
  obtain ⟨rfl, rfl⟩ := hends.last hstep
  exact hfits

theorem Inserts.go {p p' : InsertPc} (h : Inserts q L t p)
    (hstep : insertWires t q p = some (q', .inl p')) : Inserts q' L t p' := by
  obtain ⟨qend, hends, hfits⟩ := h
  exact ⟨qend, hends.rest hstep, hfits⟩

theorem Inserts.last {p : InsertPc} (h : Inserts q L t p)
    (hstep : insertWires t q p = some (q', .inr ())) : Fits q' L := by
  obtain ⟨qend, hends, hfits⟩ := h
  obtain ⟨rfl, _⟩ := hends.last hstep
  exact hfits

end Stores

end DragonFly.Mutex.Queue
