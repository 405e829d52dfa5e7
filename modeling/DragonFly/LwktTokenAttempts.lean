import DragonFly.LwktTokenSteps

/-!
# Attempts at a token

`_lwkt_trytokref` from its first read to its return.  A thread that has the exclusive bit
always finds itself in `t_ref`, so an attempt at a token that it has cannot fail.
-/

namespace DragonFly.LwktToken

open Function List

variable {T K : Type}

section Attempts

variable {refs : List (Ref K)} {a : Attempt} {r : Ref K}

theorem Attempt.Fits.index_notMem (h : a.Fits n) : a.index ∉ a.before n := by
  unfold Attempt.before
  unfold Attempt.Fits at h
  cases hgoal : a.goal with
  | get | attempt =>
    rw [hgoal] at h
    simp only at h
    rw [mem_range]
    omega
  | all rest done confirm tokenSpin =>
    rw [hgoal] at h
    have hnodup : (a.index :: (rest ++ done)).Nodup := h.nodup_iff.mpr nodup_range
    intro hmem
    exact (nodup_cons.mp hnodup).1 (mem_append_right _ hmem)

theorem heldAre_after (h : HeldAre refs (a.before refs.length)) (hfits : a.Fits refs.length)
    (hf : ∀ r : Ref K, (f r).held = true) :
    HeldAre (refs.modify a.index f) (a.after (refs.modify a.index f).length) := by
  rw [length_modify]
  have hhold : HeldAre (refs.modify a.index f) (a.index :: a.before refs.length) := h.hold hf
  unfold Attempt.before at hhold
  unfold Attempt.after
  unfold Attempt.Fits at hfits
  cases hgoal : a.goal with
  | get | attempt =>
    rw [hgoal] at hhold hfits
    simp only at hfits
    apply hhold.congr
    intro i _
    rw [mem_cons, mem_range, mem_range]
    omega
  | all rest done confirm tokenSpin =>
    rw [hgoal] at hhold
    exact hhold

theorem has_iff [DecidableEq K] (hr : refs[i]? = some r) : Has refs i ↔ 0 < ex r.tok refs := by
  rw [ex_pos_iff]
  constructor
  · rintro ⟨b, j, hb, hex⟩
    rw [hr, Option.some.injEq] at hb
    rw [hb]
    exact ⟨j, hex⟩
  · rintro ⟨j, hex⟩
    exact ⟨r, j, hr, hex⟩

/-- The facts that all points of an attempt share. -/
structure Trying (refs : List (Ref K)) (a : Attempt) : Prop where
  held : HeldAre refs (a.before refs.length)
  rooted : Rooted refs
  single : Single (if a.fresh then refs.dropLast else refs)
  fits : a.Fits refs.length
  mode : Mode refs a.index a.excl

namespace Trying

theorem not_held (h : Trying refs a) (hr : refs[a.index]? = some r) : r.held = false := by
  cases hheld : r.held with
  | false => rfl
  | true => exact absurd ((h.held _ _ hr).mp hheld) h.fits.index_notMem

theorem excl_eq (h : Trying refs a) (hr : refs[a.index]? = some r) : r.excl = a.excl := by
  obtain ⟨b, hb, hexcl⟩ := h.mode
  rw [hr, Option.some.injEq] at hb
  rw [hb]
  exact hexcl

theorem fresh_fits (h : Trying refs a) (hfresh : a.fresh = true) :
    a.index + 1 = refs.length ∧ a.before refs.length = List.range (refs.length - 1) := by
  have hfits := h.fits
  unfold Attempt.Fits at hfits
  unfold Attempt.fresh at hfresh
  unfold Attempt.before
  cases hgoal : a.goal with
  | get | attempt =>
    rw [hgoal] at hfits
    exact ⟨hfits, rfl⟩
  | all rest done confirm tokenSpin =>
    rw [hgoal] at hfresh
    cases hfresh

/-- A thread that does not have the token has no other tokref with `TOK_EXCLUSIVE` for it. -/
theorem single_of_not_has
    (h : Trying refs a) (hnot : a.excl = true → ¬ Has refs a.index) : Single refs := by
  have hsingle := h.single
  split_ifs at hsingle with hfresh
  · obtain ⟨hindex, hbefore⟩ := h.fresh_fits hfresh
    obtain ⟨r, hr, hexcl⟩ := h.mode
    apply single_of_dropLast hsingle hr hindex
    intro hset j b hb hj htok
    cases hbexcl : b.excl with
    | false => rfl
    | true =>
      have hheld : b.held = true := by
        rw [h.held j b hb, hbefore, mem_range]
        omega
      exact absurd ⟨r, j, hr, b, hb, htok, hheld, hbexcl⟩ (hnot (hexcl ▸ hset))
  · exact hsingle

variable [DecidableEq T] {t : T}

variable (h : Trying refs a)
include h

theorem good : Good t refs (.tryCount (T := T) a) :=
  ⟨h.held, h.rooted, h.single, h.fits, h.mode⟩

theorem success (hf : ∀ r : Ref K, (f r).held = true) (hrooted : Rooted (refs.modify a.index f))
    (hsingle : Single (refs.modify a.index f)) :
    Good t (refs.modify a.index f) (a.success (refs.modify a.index f)) := by
  apply success_good (heldAre_after h.held h.fits hf) _ hrooted hsingle
  rw [length_modify]
  exact h.fits

theorem hold (hnot : a.excl = true → ¬ Has refs a.index) :
    Good t (refs.modify a.index Ref.hold) (a.success (refs.modify a.index Ref.hold)) := by
  apply h.success fun _ => rfl
  · exact h.rooted.modify fun _ => ⟨rfl, rfl, rfl⟩
  · exact (h.single_of_not_has hnot).modify fun _ => ⟨rfl, id⟩

theorem checkRef (hexcl : a.excl = true) (hnot : ¬ Has refs a.index) :
    Good t (refs.modify a.index Ref.hold) (.checkRef (T := T) a) := by
  obtain ⟨r, hr, hmode⟩ := h.mode
  refine ⟨heldAre_after h.held h.fits fun _ => rfl, ?_, ?_, ?_, ?_⟩
  · exact h.rooted.modify fun _ => ⟨rfl, rfl, rfl⟩
  · exact (h.single_of_not_has fun _ => hnot).modify fun _ => ⟨rfl, id⟩
  · rw [length_modify]
    exact h.fits
  · exact ⟨_, getElem?_modify_self hr, hmode.trans hexcl⟩

theorem recurse (hexcl : a.excl = true) (hhas : Has refs a.index) :
    Good t (refs.modify a.index Ref.recurse) (a.success (refs.modify a.index Ref.recurse)) := by
  obtain ⟨r, j, hr, b, hb, htok, hheld, hbexcl⟩ := hhas
  have hrexcl : r.excl = true := (h.excl_eq hr).trans hexcl
  have hnot := h.not_held hr
  have hj : j ≠ a.index := by
    rintro rfl
    rw [hr, Option.some.injEq] at hb
    rw [← hb, hnot] at hheld
    cases hheld
  have hfresh : a.fresh = true := by
    cases hfresh : a.fresh with
    | true => rfl
    | false =>
      have hsingle := h.single
      rw [hfresh] at hsingle
      exact absurd (hsingle j a.index b r hb hr htok hbexcl hrexcl) hj
  obtain ⟨hindex, _⟩ := h.fresh_fits hfresh
  have hjlt : j < refs.length := (List.getElem?_eq_some_iff.mp hb).1
  apply h.success fun _ => rfl
  · -- the new tokref lies over the one with the exclusive bit, the others do not lie over it
    intro i c hc hasked
    obtain ⟨c', hc', rfl⟩ := getElem?_of_modify hc
    have hilt : i < refs.length := (List.getElem?_eq_some_iff.mp hc').1
    by_cases hi : i = a.index
    · rw [if_pos hi]
      subst hi
      rw [hr, Option.some.injEq] at hc'
      refine ⟨j, b, by omega, ?_, ?_, hbexcl⟩
      · rw [getElem?_modify_of_ne hj]
        exact hb
      · rw [← hc']
        exact htok
    · rw [if_neg hi] at hasked ⊢
      obtain ⟨root, d, hle, hd, hdtok, hdexcl⟩ := h.rooted i c' hc' hasked
      refine ⟨root, d, hle, ?_, hdtok, hdexcl⟩
      rw [getElem?_modify_of_ne (by omega)]
      exact hd
  · have hsingle := h.single
    rw [if_pos hfresh] at hsingle
    intro i i' c c' hc hc' hsame hset hset'
    obtain ⟨d, hd, rfl⟩ := getElem?_of_modify hc
    obtain ⟨d', hd', rfl⟩ := getElem?_of_modify hc'
    have hilt : i < refs.length := (List.getElem?_eq_some_iff.mp hd).1
    have hilt' : i' < refs.length := (List.getElem?_eq_some_iff.mp hd').1
    by_cases hi : i = a.index
    · rw [if_pos hi] at hset
      cases hset
    · by_cases hi' : i' = a.index
      · rw [if_pos hi'] at hset'
        cases hset'
      · rw [if_neg hi] at hsame hset
        rw [if_neg hi'] at hsame hset'
        apply hsingle i i' d d' _ _ hsame hset hset'
        · rw [getElem?_dropLast_of_lt (by omega)]
          exact hd
        · rw [getElem?_dropLast_of_lt (by omega)]
          exact hd'

end Trying

end Attempts

section Global

variable [Fintype T] [DecidableEq T] [DecidableEq K] {token : K → Token T}
  {refs : T → List (Ref K)} {pc : T → Pc T} {t : T} {r : Ref K} {a : Attempt}
  {refs' : List (Ref K)} {pc' : Pc T} {tok : Token T}

namespace Inv

theorem failed (h : Inv token refs pc) (htry : Trying (refs t) a) (hr : (refs t)[a.index]? = some r)
    (hbefore : ∀ k j, Names (refs t) k j (pc t) ↔ Exclusive (refs t) k j)
    (hnot : a.excl = true → ¬ Has (refs t) a.index) (hfailure : a.failure (refs t) = (refs', pc'))
    (hword : tok.word.count = (token r.tok).word.count ∧
      tok.word.excl = (token r.tok).word.excl ∧ tok.ref = (token r.tok).ref) :
    Inv (update token r.tok tok) (update refs t refs') (update pc t pc') := by
  have hgood : Good t refs' pc' :=
    failure_good htry.held htry.fits htry.mode htry.rooted (htry.single_of_not_has hnot) hfailure
  have hnotheld := htry.not_held hr
  apply h.look hword.1 hword.2.1 hword.2.2 _ _ hgood
  · intro k
    unfold Attempt.failure at hfailure
    split_ifs at hfailure
    · cases hfailure
      exact ⟨rfl, rfl⟩
    · have hfits := htry.fits
      unfold Attempt.Fits at hfits
      cases hgoal : a.goal with
      | get | all _ _ _ _ =>
        rw [hgoal] at hfailure
        cases hfailure
        exact ⟨rfl, rfl⟩
      | attempt =>
        rw [hgoal] at hfailure hfits
        cases hfailure
        have hex := ex_dropLast k hr hfits
        have hsh := sh_dropLast k hr hfits
        rw [hnotheld] at hex hsh
        exact ⟨by simpa using hex, by simpa using hsh⟩
  · intro k j
    rw [hbefore]
    unfold Attempt.failure at hfailure
    split_ifs at hfailure
    · cases hfailure
      exact Iff.rfl
    · have hfits := htry.fits
      unfold Attempt.Fits at hfits
      cases hgoal : a.goal with
      | get | all _ _ _ _ =>
        rw [hgoal] at hfailure
        cases hfailure
        exact names_startRelease _
      | attempt =>
        rw [hgoal] at hfailure hfits
        cases hfailure
        rw [Names, exclusive_dropLast_iff]
        constructor
        · exact And.right
        · intro hex
          refine ⟨?_, hex⟩
          intro hj
          obtain ⟨b, hb, _, hheld, _⟩ := hex
          have heq : j = a.index := by
            simp only at hfits
            omega
          rw [heq, hr, Option.some.injEq] at hb
          rw [← hb, hnotheld] at hheld
          cases hheld

theorem tryAct (h : Inv token refs pc) {count : Word} (hpc : pc t = .tryAct a count oref)
    (hr : (refs t)[a.index]? = some r)
    (hstep : tryActStep t (token r.tok) (refs t) a count oref = o) :
    Inv (update token r.tok o.token) (update refs t o.refs) (update pc t o.pc) := by
  have hgood := h.good t
  rw [hpc] at hgood
  obtain ⟨hfits, hmode, hcount, hours⟩ := hgood.knows
  have htry : Trying (refs t) a := ⟨hgood.held, hgood.rooted, hgood.single, hfits, hmode⟩
  have hbefore : ∀ k j, Names (refs t) k j (pc t) ↔ Exclusive (refs t) k j := by
    intro k j
    rw [hpc]
    exact Iff.rfl
  have hagain : Inv (update token r.tok (token r.tok)) (update refs t (refs t))
      (update pc t (.tryCount a)) := by
    exact h.read hpc rfl rfl (fun _ _ => Iff.rfl) htry.good.knows
  have hfail : ∀ tok : Token T, (a.excl = true → ¬ Has (refs t) a.index) →
      (tok.word.count = (token r.tok).word.count ∧
        tok.word.excl = (token r.tok).word.excl ∧ tok.ref = (token r.tok).ref) →
      Inv (update token r.tok tok) (update refs t (a.failure (T := T) (refs t)).1)
        (update pc t (a.failure (refs t)).2) := by
    intro tok hnot hword
    exact h.failed htry hr hbefore hnot rfl hword
  have hnotheld := htry.not_held hr
  have hexcl := htry.excl_eq hr
  unfold tryActStep at hstep
  by_cases hmode : a.excl = true
  · rw [if_pos hmode] at hstep
    by_cases hfree : (!count.excl) = true ∧ count.count = 0
    · rw [if_pos hfree] at hstep
      by_cases hword : (token r.tok).word = count
      · rw [if_pos hword] at hstep
        subst hstep
        have hzero : (token r.tok).word.excl = false ∧ (token r.tok).word.count = 0 := by
          rw [hword]
          exact ⟨by simpa using hfree.1, hfree.2⟩
        apply h.acquireExcl hr hnotheld (hexcl.trans hmode) hzero hbefore
        apply htry.checkRef hmode
        rw [has_iff hr, h.nobody_of_excl hzero.1]
        exact Nat.lt_irrefl 0
      · rw [if_neg hword] at hstep
        subst hstep
        exact hagain
    · rw [if_neg hfree] at hstep
      by_cases hmine : count.excl = true ∧ ours t (refs t) oref = true
      · rw [if_pos hmine] at hstep
        subst hstep
        have hhas := hours.mpr hmine.2
        apply h.acquireShared hr hnotheld ⟨rfl, rfl, rfl⟩ (.inr ((has_iff hr).mp hhas)) hbefore
        · intro k j
          exact names_success _
        · exact ⟨rfl, rfl, rfl⟩
        · exact htry.recurse hmode hhas
      · rw [if_neg hmine] at hstep
        have hnot : a.excl = true → ¬ Has (refs t) a.index := by
          intro _ hhas
          exact hmine ⟨hcount hhas, hours.mp hhas⟩
        split_ifs at hstep
        · subst hstep
          exact hfail _ hnot ⟨rfl, rfl, rfl⟩
        · subst hstep
          exact hfail _ hnot ⟨rfl, rfl, rfl⟩
  · rw [if_neg hmode] at hstep
    have hnot : a.excl = true → ¬ Has (refs t) a.index := fun hset => absurd hset hmode
    have hshared : r.excl = false := hexcl.trans (Bool.eq_false_iff.mpr hmode)
    have hadd : (token r.tok).word.excl = false ∨ 0 < ex r.tok (refs t) → Inv (update token r.tok
            { token r.tok with
              word := { (token r.tok).word with count := (token r.tok).word.count + 1 } })
          (update refs t ((refs t).modify a.index Ref.hold))
          (update pc t (a.success ((refs t).modify a.index Ref.hold))) := by
      intro hmay
      apply h.acquireShared hr hnotheld ⟨rfl, rfl, hshared⟩ hmay hbefore
      · intro k j
        exact names_success _
      · exact ⟨rfl, rfl, rfl⟩
      · exact htry.hold hnot
    by_cases hfree : (!count.excl) = true
    · rw [if_pos hfree] at hstep
      by_cases hword : (token r.tok).word = count
      · rw [if_pos hword] at hstep
        subst hstep
        apply hadd
        left
        rw [hword]
        simpa using hfree
      · rw [if_neg hword] at hstep
        subst hstep
        exact hagain
    · rw [if_neg hfree] at hstep
      by_cases hmine : ours t (refs t) oref = true
      · rw [if_pos hmine] at hstep
        subst hstep
        exact hadd (.inr ((has_iff hr).mp (hours.mpr hmine)))
      · rw [if_neg hmine] at hstep
        subst hstep
        exact hfail _ hnot ⟨rfl, rfl, rfl⟩

end Inv

end Global

end DragonFly.LwktToken
