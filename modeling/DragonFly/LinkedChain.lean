import Mathlib

/-!
# Null-terminated chains

A singly linked list is a head and a link out of every cell.  `Chain next head l`
says that following the links from `head` visits the cells of `l` and stops at a
null link.  A list that is appended to also keeps a tail: the cell whose link is to
be overwritten, or nothing when the head itself is.
-/

namespace DragonFly

variable {α : Type}

def Chain (next : α → Option α) : Option α → List α → Prop
  | head, [] => head = none
  | head, a :: l => head = some a ∧ Chain next (next a) l

namespace Chain

variable {next next' : α → Option α} {head : Option α} {a : α} {l r : List α}

theorem cons (h : Chain next (next a) l) : Chain next (some a) (a :: l) :=
  ⟨rfl, h⟩

theorem eq_nil (h : Chain next none l) : l = [] := by
  cases l with
  | nil => rfl
  | cons a l =>
    have hhead : none = some a := h.1
    simp at hhead

theorem eq_cons (h : Chain next (some a) l) : ∃ r, l = a :: r ∧ Chain next (next a) r := by
  cases l with
  | nil =>
    have hhead : some a = none := h
    simp at hhead
  | cons b r =>
    have hhead : b = a := (Option.some.inj h.1).symm
    subst hhead
    exact ⟨r, rfl, h.2⟩

theorem head_eq_none_iff (h : Chain next head l) : head = none ↔ l = [] := by
  constructor
  · intro hnone
    rw [hnone] at h
    exact h.eq_nil
  · intro hnil
    rw [hnil] at h
    exact h

theorem congr (h : Chain next head l) (hlinks : ∀ a ∈ l, next' a = next a) :
    Chain next' head l := by
  induction l generalizing head with
  | nil => exact h
  | cons a l ih =>
    have hrest : Chain next' (next a) l := ih h.2 fun b hb => hlinks b (List.mem_cons_of_mem a hb)
    refine ⟨h.1, ?_⟩
    rw [hlinks a List.mem_cons_self]
    exact hrest

variable [DecidableEq α]

theorem update (h : Chain next head l) (ha : a ∉ l) (v : Option α) :
    Chain (Function.update next a v) head l := by
  apply h.congr
  intro b hb
  exact Function.update_of_ne (ne_of_mem_of_not_mem hb ha) v next

theorem push (h : Chain next head l) (ha : a ∉ l) :
    Chain (Function.update next a head) (some a) (a :: l) := by
  apply Chain.cons
  rw [Function.update_self]
  exact h.update ha head

theorem append_last (h : Chain next head (l ++ [a])) (hr : Chain next (some b) r)
    (hnodup : (l ++ [a] ++ r).Nodup) :
    Chain (Function.update next a (some b)) head (l ++ [a] ++ r) := by
  induction l generalizing head with
  | nil =>
    have ha : a ∉ r := (List.nodup_cons.mp hnodup).1
    refine ⟨h.1, ?_⟩
    rw [Function.update_self]
    exact hr.update ha (some b)
  | cons c l ih =>
    have hparts := List.nodup_cons.mp hnodup
    have hne : c ≠ a := by
      intro heq
      apply hparts.1
      rw [heq]
      simp
    refine ⟨h.1, ?_⟩
    rw [Function.update_of_ne hne]
    exact ih h.2 hparts.2

end Chain

end DragonFly
