import Mathlib

/-!
# Rings

A ring is a circular doubly linked list: a pointer to one of its cells, and links both
ways between neighbours.  A cell can be taken out wherever it is, and the pointer moves
to the cell behind it.  A new cell goes in front of the pointer.

Both take several stores.  While somebody is at them nobody else looks at the ring, so
what counts is the ring that the stores still to come will leave.
-/

namespace DragonFly

open Function List

section Pending

variable {σ P R : Type}

/-- A sequence of stores that is at `p` ends with the state `s'` and the result `r`. -/
inductive Ends (step : σ → P → Option (σ × (P ⊕ R))) : σ → P → σ → R → Prop
  | stop (hstep : step s p = some (s', .inr r)) : Ends step s p s' r
  | go (hstep : step s p = some (s₁, .inl p₁)) (hrest : Ends step s₁ p₁ s' r) : Ends step s p s' r

namespace Ends

variable {step : σ → P → Option (σ × (P ⊕ R))} {s s₁ s' : σ} {p p₁ : P} {r r₁ : R}

theorem rest
    (h : Ends step s p s' r) (hstep : step s p = some (s₁, .inl p₁)) : Ends step s₁ p₁ s' r := by
  cases h with
  | stop hstop =>
    rw [hstep] at hstop
    cases hstop
  | go hgo hrest =>
    rw [hstep] at hgo
    cases hgo
    exact hrest

theorem last
    (h : Ends step s p s' r) (hstep : step s p = some (s₁, .inr r₁)) : s₁ = s' ∧ r₁ = r := by
  cases h with
  | stop hstop =>
    rw [hstep] at hstop
    cases hstop
    exact ⟨rfl, rfl⟩
  | go hgo _ =>
    rw [hstep] at hgo
    cases hgo

theorem isSome (h : Ends step s p s' r) : step s p ≠ none := by
  cases h with
  | stop hstop =>
    rw [hstop]
    exact Option.some_ne_none _
  | go hgo _ =>
    rw [hgo]
    exact Option.some_ne_none _

end Ends

end Pending

variable {T : Type}

/-- Neighbours in a list are related, and so are its ends. -/
def Circle (R : T → T → Prop) (l : List T) : Prop :=
  l.IsChain R ∧ ∀ a ∈ l.head?, ∀ z ∈ l.getLast?, R z a

theorem Circle.rotate (h : Circle R (l ++ r)) : Circle R (r ++ l) := by
  obtain ⟨hchain, hclosed⟩ := h
  cases hl : l with
  | nil =>
    subst hl
    rw [append_nil]
    exact ⟨hchain, hclosed⟩
  | cons a l' =>
    cases hr : r with
    | nil =>
      subst hl hr
      rw [append_nil] at hchain hclosed
      exact ⟨hchain, hclosed⟩
    | cons b r' =>
      rw [← hl, ← hr]
      rw [isChain_append] at hchain
      obtain ⟨hleft, hright, hmiddle⟩ := hchain
      have hne : l ≠ [] := by rw [hl]; exact cons_ne_nil _ _
      have hne' : r ≠ [] := by rw [hr]; exact cons_ne_nil _ _
      rw [head?_append_of_ne_nil _ hne, getLast?_append_of_ne_nil _ hne'] at hclosed
      constructor
      · rw [isChain_append]
        exact ⟨hright, hleft, fun z hz a ha => hclosed a ha z hz⟩
      · rw [head?_append_of_ne_nil _ hne', getLast?_append_of_ne_nil _ hne]
        exact fun a ha z hz => hmiddle z hz a ha

theorem ne_last_of_mem_dropLast {l : List T} (hnodup : l.Nodup) (hz : l.getLast? = some z)
    (hx : x ∈ l.dropLast) : x ≠ z := by
  rintro rfl
  obtain ⟨init, rfl⟩ := getLast?_eq_some_iff.mp hz
  rw [dropLast_concat] at hx
  exact (nodup_append.mp hnodup).2.2 x hx x mem_cons_self rfl

structure Wires (T : Type) where
  head : Option T
  next : T → Option T
  prev : T → Option T

namespace Wires

def Joins (q : Wires T) (a b : T) : Prop :=
  q.next a = some b ∧ q.prev b = some a

/-- The cells of the ring, from the one that `head` points to. -/
structure Spells (q : Wires T) (l : List T) : Prop where
  nodup : l.Nodup
  head : q.head = l.head?
  circle : Circle q.Joins l

variable {q q' : Wires T} {a b w z t : T} {l r : List T}

theorem chain_congr (h : l.IsChain q.Joins) (hnext : ∀ x ∈ l.dropLast, q'.next x = q.next x)
    (hprev : ∀ y ∈ l.tail, q'.prev y = q.prev y) : l.IsChain q'.Joins := by
  induction l with
  | nil => exact isChain_nil
  | cons a l ih =>
    cases l with
    | nil => exact isChain_singleton a
    | cons b l =>
      rw [isChain_cons_cons] at h ⊢
      constructor
      · have hna := hnext a mem_cons_self
        have hpb := hprev b mem_cons_self
        rw [Joins, hna, hpb]
        exact h.1
      · apply ih h.2
        · intro x hx
          exact hnext x (mem_cons_of_mem a hx)
        · intro y hy
          exact hprev y (mem_cons_of_mem b hy)

theorem Spells.nil (h : q.head = none) : q.Spells [] :=
  ⟨nodup_nil, h, isChain_nil, nofun⟩

theorem Spells.eq_nil (h : q.Spells l) (hhead : q.head = none) : l = [] := by
  rw [h.head, head?_eq_none_iff] at hhead
  exact hhead

theorem Spells.rotate (h : q.Spells l) (hw : w ∈ l) :
    ∃ r, (∀ u, u ∈ w :: r ↔ u ∈ l) ∧ (w :: r).Nodup ∧ Circle q.Joins (w :: r) := by
  obtain ⟨before, behind, rfl⟩ := append_of_mem hw
  have hcircle : Circle q.Joins ((w :: behind) ++ before) := h.circle.rotate
  refine ⟨behind ++ before, ?_, ?_, hcircle⟩
  · intro u
    simp only [mem_cons, mem_append]
    tauto
  · have hnodup : ((w :: behind) ++ before).Nodup := nodup_append_comm.mp h.nodup
    exact hnodup

theorem alone_of_circle (h : Circle q.Joins (w :: r)) (hnodup : (w :: r).Nodup) :
    q.next w = some w ↔ r = [] := by
  constructor
  · intro hnext
    cases r with
    | nil => rfl
    | cons b r =>
      have hb : q.next w = some b := (isChain_cons_cons.mp h.1).1.1
      rw [hb, Option.some.injEq] at hnext
      rw [hnext] at hnodup
      exact absurd mem_cons_self (nodup_cons.mp hnodup).1
  · rintro rfl
    exact (h.2 w rfl w rfl).1

variable [DecidableEq T]

theorem spells_without (h : Circle q.Joins (w :: r)) (hnodup : (w :: r).Nodup) (hr : r ≠ []) :
    ∃ b z, q.next w = some b ∧ q.prev w = some z ∧ b ≠ w ∧ z ≠ w ∧
      Spells ⟨some b, update q.next z (some b), update q.prev b (some z)⟩ r := by
  obtain ⟨b, rest, rfl⟩ := exists_cons_of_ne_nil hr
  obtain ⟨init, z, hlast⟩ := (eq_nil_or_concat (b :: rest)).resolve_left hr
  rw [concat_eq_append] at hlast
  rw [Circle, isChain_cons_cons] at h
  obtain ⟨⟨hwb, hchain⟩, hclosed⟩ := h
  have hz : z ∈ (w :: b :: rest).getLast? := by
    rw [hlast, getLast?_cons, getLast?_append]
    rfl
  have hzw : q.Joins z w := hclosed w rfl z hz
  obtain ⟨hfresh, hrest⟩ := nodup_cons.mp hnodup
  have hzmem : z ∈ b :: rest := by
    rw [hlast]
    exact mem_append_right _ mem_cons_self
  have hbmem : b ∈ b :: rest := mem_cons_self
  refine ⟨b, z, hwb.1, hzw.2, ?_, ?_, hrest, rfl, ?_, ?_⟩
  · exact ne_of_mem_of_not_mem hbmem hfresh
  · exact ne_of_mem_of_not_mem hzmem hfresh
  · apply chain_congr hchain
    · intro x hx
      have hxz : x ≠ z := ne_last_of_mem_dropLast hrest (hlast ▸ getLast?_concat) hx
      exact update_of_ne hxz _ _
    · intro y hy
      have hyb : y ≠ b := by
        rintro rfl
        exact (nodup_cons.mp hrest).1 hy
      exact update_of_ne hyb _ _
  · intro a ha y hy
    rw [hlast, getLast?_append] at hy
    cases ha
    cases hy
    exact ⟨update_self _ _ _, update_self _ _ _⟩

theorem spells_singleton (q : Wires T) (t : T) :
    Spells ⟨some t, update q.next t (some t), update q.prev t (some t)⟩ [t] := by
  refine ⟨nodup_singleton t, rfl, isChain_singleton t, ?_⟩
  intro a ha z hz
  cases ha
  cases hz
  exact ⟨update_self _ _ _, update_self _ _ _⟩

theorem spells_with (h : q.Spells (a :: l)) (ht : t ∉ a :: l) :
    ∃ z, q.prev a = some z ∧ a ≠ t ∧ z ≠ t ∧
      Spells ⟨some a, update (update q.next t (some a)) z (some t),
        update (update q.prev t (some z)) a (some t)⟩ (a :: l ++ [t]) := by
  obtain ⟨init, z, hlast⟩ := (eq_nil_or_concat (a :: l)).resolve_left (cons_ne_nil a l)
  rw [concat_eq_append] at hlast
  have hz : z ∈ (a :: l).getLast? := by
    rw [hlast, getLast?_append]
    rfl
  have hza : q.Joins z a := h.circle.2 a rfl z hz
  have hzmem : z ∈ a :: l := mem_of_getLast? hz
  have hat : a ≠ t := ne_of_mem_of_not_mem mem_cons_self ht
  have hzt : z ≠ t := ne_of_mem_of_not_mem hzmem ht
  refine ⟨z, hza.2, hat, hzt, ?_, rfl, ?_, ?_⟩
  · rw [nodup_append]
    refine ⟨h.nodup, nodup_singleton t, ?_⟩
    intro x hx y hy
    rw [mem_singleton] at hy
    rw [hy]
    exact ne_of_mem_of_not_mem hx ht
  · rw [isChain_append]
    refine ⟨?_, isChain_singleton t, ?_⟩
    · apply chain_congr h.circle.1
      · intro x hx
        have hxz : x ≠ z := ne_last_of_mem_dropLast h.nodup hz hx
        have hxt : x ≠ t := ne_of_mem_of_not_mem (mem_of_mem_dropLast hx) ht
        exact (update_of_ne hxz _ _).trans (update_of_ne hxt _ _)
      · intro y hy
        have hya : y ≠ a := by
          rintro rfl
          exact (nodup_cons.mp h.nodup).1 hy
        have hyt : y ≠ t := ne_of_mem_of_not_mem (mem_of_mem_tail hy) ht
        exact (update_of_ne hya _ _).trans (update_of_ne hyt _ _)
    · intro x hx y hy
      cases hy
      have hxz : x = z := Option.mem_unique hx hz
      subst hxz
      constructor
      · exact update_self _ _ _
      · simp only
        rw [update_of_ne hat.symm, update_self]
  · intro x hx y hy
    rw [getLast?_concat] at hy
    cases hx
    cases hy
    constructor
    · simp only
      rw [update_of_ne hzt.symm, update_self]
    · exact update_self _ _ _

end Wires

end DragonFly
