import DragonFly.LwktTokenAttempts

/-!
# Runs of threads with tokens

The steps of all functions keep the invariant, and so do the calls.
-/

namespace DragonFly.LwktToken

open Function Option

variable {T K : Type}

section Places

variable {refs : List (Ref K)} {k : K} {i j : ℕ} {r : Ref K}

theorem Exclusive.ne_place
    (h : Exclusive refs k j) (hr : refs[i]? = some r) (hk : k ≠ r.tok) : j ≠ i := by
  rintro rfl
  obtain ⟨c, hc, htok, _⟩ := h
  rw [hr, some.injEq] at hc
  exact hk (htok ▸ hc ▸ rfl)

/-- The store for the first of two exchanged tokrefs is done, or there is none to do. -/
theorem names_first (hlen : 2 ≤ refs.length) (hnot : ¬ Exclusive refs k (refs.length - 2)) :
    Names refs k j (.swapTest (T := T) true) ↔ Names refs k j (.swapTest (T := T) false) := by
  simp only [Names, swapPlace]
  by_cases hlast : j + 1 = refs.length
  · rw [if_pos hlast]
    constructor
    · rintro (⟨_, heq⟩ | ⟨_, hne⟩)
      · omega
      · omega
    · intro hex
      exact absurd hex hnot
  · rw [if_neg hlast]
    by_cases hsecond : j + 2 = refs.length
    · rw [if_pos hsecond]
      have hj : j = refs.length - 2 := by omega
      constructor
      · rintro (⟨hex, _⟩ | ⟨hex, _⟩)
        · exact hex
        · exact absurd (hj ▸ hex) hnot
      · intro hex
        exact .inl ⟨hex, hj⟩
    · rw [if_neg hsecond]
      constructor
      · rintro (⟨_, heq⟩ | ⟨hex, _⟩)
        · omega
        · exact hex
      · intro hex
        exact .inr ⟨hex, by omega⟩

theorem names_second (hnot : ¬ Exclusive refs k (refs.length - 1)) :
    Names refs k j (.run (T := T)) ↔ Names refs k j (.swapTest (T := T) true) := by
  simp only [Names]
  constructor
  · intro hex
    exact .inr ⟨hex, fun heq => hnot (heq ▸ hex)⟩
  · rintro (⟨hex, _⟩ | ⟨hex, _⟩)
    · exact absurd hex hnot
    · exact hex

end Places

section Steps

variable [Fintype T] [DecidableEq T] [DecidableEq K] {token : K → Token T}
  {refs : T → List (Ref K)} {pc : T → Pc T} {t : T} {r : Ref K} {a : Attempt}
  {rel : Release} {count : Word}

namespace Inv

section

variable (h : Inv token refs pc)
include h

theorem tryCount (hpc : pc t = .tryCount a) (hr : (refs t)[a.index]? = some r) :
    Inv (update token r.tok (token r.tok)) (update refs t (refs t))
      (update pc t (.tryRef a (token r.tok).word)) := by
  obtain ⟨hfits, hmode⟩ := h.knows hpc
  refine h.read hpc rfl rfl (fun _ _ => Iff.rfl) ?_
  refine ⟨hfits, hmode, ?_⟩
  intro hhas
  exact h.excl_of_ex ((has_iff hr).mp hhas)

theorem tryRef (hpc : pc t = .tryRef a count) (hr : (refs t)[a.index]? = some r) :
    Inv (update token r.tok (token r.tok)) (update refs t (refs t))
      (update pc t (.tryAct a count (token r.tok).ref)) := by
  obtain ⟨hfits, hmode, hcount⟩ := h.knows hpc
  have hnames : ∀ j, (token r.tok).ref = some (t, j) ↔ Exclusive (refs t) r.tok j := by
    intro j
    rw [h.names, hpc]
    exact Iff.rfl
  refine h.read hpc rfl rfl (fun _ _ => Iff.rfl) ?_
  refine ⟨hfits, hmode, hcount, ?_⟩
  rw [has_iff hr, ex_pos_iff]
  constructor
  · rintro ⟨j, hex⟩
    rw [(hnames j).mpr hex]
    obtain ⟨b, hb, _⟩ := hex
    have hlt : j < (refs t).length := (List.getElem?_eq_some_iff.mp hb).1
    simp [ours, hlt]
  · intro hours
    cases href : (token r.tok).ref with
    | none =>
      rw [href] at hours
      cases hours
    | some o =>
      rw [href] at hours
      simp only [ours, any_some, decide_eq_true_eq] at hours
      obtain ⟨u, j⟩ := o
      obtain ⟨rfl, _⟩ := hours
      exact ⟨j, (hnames j).mp href⟩

theorem setRef (hpc : pc t = .setRef a) (hr : (refs t)[a.index]? = some r) :
    Inv (update token r.tok { token r.tok with ref := some (t, a.index) })
      (update refs t (refs t)) (update pc t (a.success (refs t))) := by
  have hgood := h.good t
  rw [hpc] at hgood
  obtain ⟨hfits, b, hb, hexcl⟩ := hgood.knows
  rw [hr, some.injEq] at hb
  subst hb
  have hheld : r.held = true := by
    rw [hgood.held _ _ hr]
    change a.index ∈ a.after _
    unfold Attempt.after
    unfold Attempt.Fits at hfits
    cases hgoal : a.goal with
    | get | attempt =>
      rw [hgoal] at hfits
      simp only at hfits
      rw [List.mem_range]
      omega
    | all rest done confirm tokenSpin => exact List.mem_cons_self
  have hex : Exclusive (refs t) r.tok a.index := ⟨r, hr, rfl, hheld, hexcl⟩
  apply h.store hex
  · rintro u j hu heq
    cases heq
    exact hu rfl
  · intro j
    rw [names_success]
    constructor
    · rintro heq
      cases heq
      exact hex
    · intro hj
      rw [hgood.exclusive_unique hj hex]
  · intro k' j hk
    rw [names_success, hpc, Names]
    constructor
    · intro hj
      exact ⟨hj.ne_place hr hk, hj⟩
    · exact And.right
  · exact success_good hgood.held hfits hgood.rooted hgood.single

theorem relRef (hpc : pc t = .relRef rel count) (hr : (refs t)[rel.index]? = some r)
    (hstep : tokenStep t (token r.tok) (refs t) (.relRef rel count) = some o) :
    Inv (update token r.tok o.token) (update refs t o.refs) (update pc t o.pc) := by
  have hgood := h.good t
  rw [hpc] at hgood
  have hfits : rel.Fits (refs t).length := hgood.knows
  have hnames := h.names r.tok t rel.index
  rw [hpc, Names] at hnames
  rw [tokenStep] at hstep
  split_ifs at hstep with hmine hbit hzero
  · cases hstep
    refine h.read hpc rfl rfl (fun _ _ => Iff.rfl) ?_
    obtain ⟨b, hb, _, _, hexcl⟩ := hnames.mp hmine
    exact ⟨hfits, b, hb, hexcl⟩
  · cases hstep
    refine h.read hpc rfl rfl (fun _ _ => Iff.rfl) ?_
    refine ⟨hfits, r, hr, ?_⟩
    cases hexcl : r.excl with
    | false => rfl
    | true =>
      have hheld : r.held = true := (hgood.held _ _ hr).mpr hfits.index_mem
      exact absurd (hnames.mpr ⟨r, hr, rfl, hheld, hexcl⟩) hmine

theorem releasing (hpc : heldPlaces (refs t).length (pc t) = rel.places (refs t).length)
    (hknows : rel.Fits (refs t).length ∧ Mode (refs t) rel.index true)
    (hr : (refs t)[rel.index]? = some r) : Exclusive (refs t) r.tok rel.index := by
  obtain ⟨hfits, b, hb, hexcl⟩ := hknows
  rw [hr, some.injEq] at hb
  subst hb
  have hheld : r.held = true := by
    rw [(h.good t).held _ _ hr, hpc]
    exact hfits.index_mem
  exact ⟨r, hr, rfl, hheld, hexcl⟩

theorem relClear (hpc : pc t = .relClear rel count) (hr : (refs t)[rel.index]? = some r) :
    Inv (update token r.tok { token r.tok with ref := none })
      (update refs t (refs t)) (update pc t (.relExcl rel count)) := by
  have hgood := h.good t
  have hknows := hgood.knows
  rw [hpc] at hknows
  have hex := h.releasing (by rw [hpc]; rfl) hknows hr
  apply h.store hex
  · exact nofun
  · intro j
    constructor
    · exact nofun
    · rintro ⟨hne, hj⟩
      exact absurd (hgood.exclusive_unique hj hex) hne
  · intro k' j hk
    rw [hpc, Names, Names]
    constructor
    · exact And.right
    · intro hj
      exact ⟨hj.ne_place hr hk, hj⟩
  · rw [hpc] at hgood
    exact ⟨hgood.held, hgood.rooted, hgood.single, hknows⟩

theorem relRestore (hpc : pc t = .relRestore rel) (hr : (refs t)[rel.index]? = some r) :
    Inv (update token r.tok { token r.tok with ref := some (t, rel.index) })
      (update refs t (refs t)) (update pc t (.relCount rel)) := by
  have hgood := h.good t
  have hknows := hgood.knows
  rw [hpc] at hknows
  have hex := h.releasing (by rw [hpc]; rfl) hknows hr
  apply h.store hex
  · rintro u j hu heq
    cases heq
    exact hu rfl
  · intro j
    rw [Names]
    constructor
    · rintro heq
      cases heq
      exact hex
    · intro hj
      rw [hgood.exclusive_unique hj hex]
  · intro k' j hk
    rw [hpc, Names, Names]
    constructor
    · intro hj
      exact ⟨hj.ne_place hr hk, hj⟩
    · exact And.right
  · rw [hpc] at hgood
    exact ⟨hgood.held, hgood.rooted, hgood.single, hknows.1⟩

theorem swapTest (hpc : pc t = .swapTest second)
    (hr : (refs t)[(Pc.swapTest (T := T) second).place (refs t).length]? = some r)
    (hstep : tokenStep t (token r.tok) (refs t) (.swapTest second) = some o) :
    Inv (update token r.tok o.token) (update refs t o.refs) (update pc t o.pc) := by
  have hgood := h.good t
  have hnames := h.names r.tok t
  rw [hpc] at hgood hnames
  obtain ⟨a, b, ha, hb, hlen, hdiffer⟩ := hgood.knows
  have hknows : Differ (refs t) := ⟨a, b, ha, hb, hlen, hdiffer⟩
  cases second with
  | false =>
    have hplace : (refs t)[(refs t).length - 2]? = some r := hr
    have hself : swapPlace (refs t).length ((refs t).length - 1) = (refs t).length - 2 :=
      if_pos (by omega)
    rw [tokenStep] at hstep
    simp only [Bool.false_eq_true, if_false] at hstep
    split_ifs at hstep with hmine
    · cases hstep
      rw [hnames, Names, hself] at hmine
      refine h.read hpc rfl rfl (fun _ _ => Iff.rfl) ?_
      obtain ⟨c, hc, _, _, hexcl⟩ := hmine
      exact ⟨hknows, c, hc, hexcl⟩
    · cases hstep
      rw [hnames, Names, hself] at hmine
      refine h.read hpc rfl rfl ?_ ?_
      · intro k j
        apply names_first hlen
        intro hex
        by_cases hk : k = r.tok
        · exact hmine (hk ▸ hex)
        · exact hex.ne_place hplace hk rfl
      · exact hknows
  | true =>
    have hplace : (refs t)[(refs t).length - 1]? = some r := hr
    rw [hplace, some.injEq] at ha
    subst ha
    rw [tokenStep] at hstep
    simp only [if_true] at hstep
    split_ifs at hstep with hmine
    · cases hstep
      rw [hnames, Names] at hmine
      refine h.read hpc rfl rfl (fun _ _ => Iff.rfl) ?_
      rcases hmine with ⟨hex, _⟩ | ⟨hex, _⟩
      · obtain ⟨c, hc, _, _, hexcl⟩ := hex
        exact ⟨hknows, c, hc, hexcl⟩
      · exact absurd rfl (hex.ne_place hb hdiffer)
    · cases hstep
      rw [hnames, Names] at hmine
      refine h.read hpc rfl rfl ?_ ?_
      · intro k j
        apply names_second
        intro hex
        by_cases hk : k = r.tok
        · exact hmine (.inl ⟨hk ▸ hex, rfl⟩)
        · exact hex.ne_place hplace hk rfl
      · trivial

theorem swapStore (hpc : pc t = .swapStore second)
    (hr : (refs t)[(Pc.swapStore (T := T) second).place (refs t).length]? = some r)
    (hstep : tokenStep t (token r.tok) (refs t) (.swapStore second) = some o) :
    Inv (update token r.tok o.token) (update refs t o.refs) (update pc t o.pc) := by
  have hgood := h.good t
  rw [hpc] at hgood
  obtain ⟨⟨a, b, ha, hb, hlen, hdiffer⟩, c, hc, hexcl⟩ := hgood.knows
  have hknows : Differ (refs t) := ⟨a, b, ha, hb, hlen, hdiffer⟩
  rw [hr, some.injEq] at hc
  subst hc
  have hall : ∀ (i : ℕ) (c : Ref K), (refs t)[i]? = some c → c.held = true := by
    intro i c hc
    rw [hgood.held i c hc]
    exact List.mem_range.mpr (List.getElem?_eq_some_iff.mp hc).1
  have hex : Exclusive (refs t) r.tok ((Pc.swapStore (T := T) second).place (refs t).length) :=
    ⟨r, hr, rfl, hall _ _ hr, hexcl⟩
  cases second with
  | false =>
    have hplace : (refs t)[(refs t).length - 2]? = some r := hr
    cases hstep
    apply h.store hex
    · rintro u j hu heq
      cases heq
      exact hu rfl
    · intro j
      constructor
      · rintro heq
        cases heq
        have hne : (refs t).length - 2 ≠ (refs t).length - 1 := by omega
        exact .inr ⟨hex, hne⟩
      · rintro (⟨hlast, _⟩ | ⟨hj, _⟩)
        · rw [hplace, some.injEq] at hb
          subst hb
          exact absurd rfl (hlast.ne_place ha hdiffer.symm)
        · rw [hgood.exclusive_unique hj hex]
          rfl
    · intro k' j hk
      rw [hpc]
      apply names_first hlen
      intro hother
      exact hother.ne_place hplace hk rfl
    · exact ⟨hgood.held, hgood.rooted, hgood.single, hknows⟩
  | true =>
    have hplace : (refs t)[(refs t).length - 1]? = some r := hr
    cases hstep
    apply h.store hex
    · rintro u j hu heq
      cases heq
      exact hu rfl
    · intro j
      constructor
      · rintro heq
        cases heq
        exact hex
      · intro hj
        rw [hgood.exclusive_unique hj hex]
        rfl
    · intro k' j hk
      rw [hpc]
      apply names_second
      intro hother
      exact hother.ne_place hplace hk rfl
    · exact ⟨hgood.held, hgood.rooted, hgood.single, trivial⟩

theorem step (hr : (refs t)[(pc t).place (refs t).length]? = some r)
    (hstep : tokenStep t (token r.tok) (refs t) (pc t) = some o) :
    Inv (update token r.tok o.token) (update refs t o.refs) (update pc t o.pc) := by
  cases hpc : pc t with
  | run | out _ =>
    rw [hpc] at hstep
    cases hstep
  | confirm =>
    rw [hpc, tokenStep] at hstep
    split_ifs at hstep
    cases hstep
    exact h.read hpc rfl rfl (fun _ _ => Iff.rfl) trivial
  | tryCount a =>
    rw [hpc] at hr hstep
    cases hstep
    exact h.tryCount hpc hr
  | tryRef a count =>
    rw [hpc] at hr hstep
    cases hstep
    exact h.tryRef hpc hr
  | tryAct a count oref =>
    rw [hpc] at hr hstep
    exact h.tryAct hpc hr (some.inj hstep)
  | checkRef a =>
    rw [hpc, tokenStep] at hstep
    split_ifs at hstep
    cases hstep
    have hknows := h.knows hpc
    exact h.read hpc rfl rfl (fun _ _ => Iff.rfl) hknows
  | setRef a =>
    rw [hpc] at hr hstep
    cases hstep
    exact h.setRef hpc hr
  | relCount rel =>
    rw [hpc] at hstep
    cases hstep
    have hknows := h.knows hpc
    exact h.read hpc rfl rfl (fun _ _ => Iff.rfl) hknows
  | relRef rel count =>
    rw [hpc] at hr hstep
    exact h.relRef hpc hr hstep
  | relClear rel count =>
    rw [hpc] at hr hstep
    cases hstep
    exact h.relClear hpc hr
  | relExcl rel count =>
    rw [hpc] at hr
    rw [hpc, tokenStep] at hstep
    split_ifs at hstep with hword
    · cases hstep
      exact h.releaseExcl hpc hr rfl hword
    · cases hstep
      have hknows := h.knows hpc
      exact h.read hpc rfl rfl (fun _ _ => Iff.rfl) hknows
  | relRestore rel =>
    rw [hpc] at hr hstep
    cases hstep
    exact h.relRestore hpc hr
  | relShared rel count =>
    rw [hpc] at hr
    rw [hpc, tokenStep] at hstep
    split_ifs at hstep with hword
    · cases hstep
      exact h.releaseShared hpc hr rfl hword
    · cases hstep
      exact h.read hpc rfl rfl (fun _ _ => Iff.rfl) (h.knows hpc).1
  | swapTest second =>
    rw [hpc] at hr hstep
    exact h.swapTest hpc hr hstep
  | swapStore second =>
    rw [hpc] at hr hstep
    exact h.swapStore hpc hr hstep

end

end Inv

end Steps

end DragonFly.LwktToken
