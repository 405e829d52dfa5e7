import DragonFly.LwktTokenStacks

/-!
# Steps on a token

Every access to a token keeps the accounts.
-/

namespace DragonFly.LwktToken

open Function Option Bool Ref

variable {T K : Type}

theorem names_success {a : Attempt} (refs' : List (Ref K)) :
    Names refs k i (a.success (T := T) refs') ↔ Exclusive refs k i := by
  unfold Attempt.success
  cases a.goal with
  | get | attempt => exact Iff.rfl
  | all rest done confirm tokenSpin =>
    cases rest with
    | nil =>
      simp only [nextAttempt]
      split_ifs
      · exact Iff.rfl
      · exact Iff.rfl
    | cons j rest => exact Iff.rfl

theorem names_startRelease (l : List ℕ) :
    Names refs k i (startRelease (T := T) confirm l) ↔ Exclusive refs k i := by
  cases l with
  | nil | cons j rest => exact Iff.rfl

section Local

variable [DecidableEq T] {t : T} {refs : List (Ref K)} {pc : Pc T} {k : K} {i j : ℕ} {r : Ref K}

theorem Good.exclusive_unique
    (h : Good t refs pc) (hi : Exclusive refs k i) (hj : Exclusive refs k j) : i = j := by
  obtain ⟨a, ha, hatok, haheld, haexcl⟩ := hi
  obtain ⟨b, hb, hbtok, hbheld, hbexcl⟩ := hj
  have hsingle := h.single
  split_ifs at hsingle with hfresh
  · -- the tokref on top is not held yet
    have hbelow : ∀ (i : ℕ) (r : Ref K), refs[i]? = some r → r.held = true →
        refs.dropLast[i]? = some r := by
      intro i r hr hheld
      have hmem := (h.held i r hr).mp hheld
      have hlt : i + 1 < refs.length := by
        cases pc with
        | tryCount a | tryRef a _ | tryAct a _ _ =>
          simp only [Pc.fresh, Attempt.fresh] at hfresh
          simp only [heldPlaces, Attempt.before] at hmem
          split at hfresh
          · next hgoal =>
              rw [hgoal, List.mem_range] at hmem
              omega
          · next hgoal =>
              rw [hgoal, List.mem_range] at hmem
              omega
          · cases hfresh
        | _ => cases hfresh
      rw [getElem?_dropLast_of_lt hlt]
      exact hr
    exact hsingle i j a b (hbelow i a ha haheld) (hbelow j b hb hbheld) (hatok.trans hbtok.symm)
      haexcl hbexcl
  · exact hsingle i j a b ha hb (hatok.trans hbtok.symm) haexcl hbexcl

theorem single_of_dropLast
    (h : Single refs.dropLast) (hr : refs[i]? = some r) (hi : i + 1 = refs.length)
    (hnew : r.excl = true → ∀ (j : ℕ) (b : Ref K), refs[j]? = some b → j + 1 < refs.length →
      b.tok = r.tok → b.excl = false) : Single refs := by
  intro j j' a a' ha ha' htok hexcl hexcl'
  have hj : j < refs.length := (List.getElem?_eq_some_iff.mp ha).1
  have hj' : j' < refs.length := (List.getElem?_eq_some_iff.mp ha').1
  by_cases hlast : j + 1 < refs.length
  · by_cases hlast' : j' + 1 < refs.length
    · exact h j j' a a' (by rw [getElem?_dropLast_of_lt hlast]; exact ha)
        (by rw [getElem?_dropLast_of_lt hlast']; exact ha') htok hexcl hexcl'
    · have heq : j' = i := by omega
      subst heq
      rw [hr, some.injEq] at ha'
      subst ha'
      have hfalse := hnew hexcl' j a ha hlast htok
      rw [hexcl] at hfalse
      cases hfalse
  · have heq : j = i := by omega
    subst heq
    rw [hr, some.injEq] at ha
    subst ha
    by_cases hlast' : j' + 1 < refs.length
    · have hfalse := hnew hexcl j' a' ha' hlast' htok.symm
      rw [hexcl'] at hfalse
      cases hfalse
    · omega

end Local

theorem Release.Fits.index_mem {rel : Release} (h : rel.Fits n) : rel.index ∈ rel.places n := by
  unfold Release.places
  unfold Release.Fits at h
  cases hafter : rel.after with
  | pop =>
    rw [hafter] at h
    simp only at h
    rw [List.mem_range]
    omega
  | out confirm => exact List.mem_cons_self

section Done

variable [DecidableEq K] {refs refs' : List (Ref K)} {pc' : Pc T} {rel : Release} {r : Ref K}

/-- A released tokref is taken out of the accounts, whether it stays on the stack or not. -/
theorem done_tally
    (hr : refs[rel.index]? = some r) (hheld : r.held = true) (hfits : rel.Fits refs.length)
    (hdone : rel.done refs = (refs', pc')) (k : K) :
    ex k refs' + (r.excl && decide (r.tok = k)).toNat = ex k refs ∧
      sh k refs' + (!r.excl && decide (r.tok = k)).toNat = sh k refs := by
  unfold Release.done at hdone
  unfold Release.Fits at hfits
  cases hafter : rel.after with
  | pop =>
    rw [hafter] at hdone hfits
    cases hdone
    have hex := ex_dropLast k hr hfits
    have hsh := sh_dropLast k hr hfits
    rw [hheld] at hex hsh
    exact ⟨by simpa using hex, by simpa using hsh⟩
  | out confirm =>
    rw [hafter] at hdone
    cases hdone
    have hex := ex_modify k (f := free) hr rfl
    have hsh := sh_modify k (f := free) hr rfl
    simp only [free, hheld] at hex hsh
    exact ⟨by simpa using hex, by simpa using hsh⟩

omit [DecidableEq K] in
theorem done_exclusive (hr : refs[rel.index]? = some r) (hfits : rel.Fits refs.length)
    (hdone : rel.done refs = (refs', pc')) (k : K) (j : ℕ) :
    Names refs' k j pc' ↔ j ≠ rel.index ∧ Exclusive refs k j := by
  unfold Release.done at hdone
  unfold Release.Fits at hfits
  cases hafter : rel.after with
  | pop =>
    rw [hafter] at hdone hfits
    cases hdone
    have hindex : j + 1 ≠ refs.length ↔ j ≠ rel.index := by
      simp only at hfits
      omega
    rw [Names, exclusive_dropLast_iff, hindex]
  | out confirm =>
    rw [hafter] at hdone
    cases hdone
    rw [names_startRelease, exclusive_modify_iff hr rfl]
    constructor
    · rintro (hold | ⟨_, _, hset, _⟩)
      · exact hold
      · cases hset
    · exact .inl

end Done

section Global

variable [Fintype T] [DecidableEq T] [DecidableEq K] {token : K → Token T}
  {refs : T → List (Ref K)} {pc : T → Pc T} {t : T} {k : K} {i : ℕ} {r : Ref K}
  {refs' : List (Ref K)} {pc' : Pc T} {tok : Token T}

namespace Inv

section

variable (h : Inv token refs pc)
include h

theorem look (hcount : tok.word.count = (token k).word.count)
    (hexcl : tok.word.excl = (token k).word.excl) (href : tok.ref = (token k).ref)
    (hsame : ∀ k, ex k refs' = ex k (refs t) ∧ sh k refs' = sh k (refs t))
    (hnames : ∀ k i, Names refs' k i pc' ↔ Names (refs t) k i (pc t)) (hgood : Good t refs' pc') :
    Inv (update token k tok) (update refs t refs') (update pc t pc') := by
  apply h.quiet _ hsame hnames hgood
  intro k'
  by_cases hk : k' = k
  · subst hk
    rw [update_self]
    exact ⟨hcount, hexcl, href⟩
  · rw [update_of_ne hk]
    exact ⟨rfl, rfl, rfl⟩

theorem knows (hpc : pc t = p) : Knows t (refs t) p := by
  subst hpc
  exact (h.good t).knows

theorem read (hpc : pc t = p)
    (hplaces : heldPlaces (refs t).length pc' = heldPlaces (refs t).length p)
    (hfresh : pc'.fresh = p.fresh) (hnames : ∀ k i, Names (refs t) k i pc' ↔ Names (refs t) k i p)
    (hknows : Knows t (refs t) pc') :
    Inv (update token k (token k)) (update refs t (refs t)) (update pc t pc') := by
  have hgood := h.good t
  subst hpc
  apply h.look rfl rfl rfl (fun _ => ⟨rfl, rfl⟩) hnames
  refine ⟨?_, hgood.rooted, ?_, hknows⟩
  · rw [hplaces]
    exact hgood.held
  · rw [hfresh]
    exact hgood.single

theorem ref_owner (hex : Exclusive (refs t) k i) (hu : u ≠ t) : (token k).ref ≠ some (u, j) := by
  intro href
  have hpos : 0 < ex k (refs t) := ex_pos_iff.mpr ⟨i, hex⟩
  have hzero := (h.others_of_ex hpos hu).1
  have hnames := (h.names k u j).mp href
  have hother : 0 < ex k (refs u) := by
    rw [ex_pos_iff]
    cases hpc : pc u with
    | checkRef a | setRef a | relExcl r _ | relRestore r =>
      rw [hpc] at hnames
      exact ⟨j, hnames.2⟩
    | swapTest second | swapStore second =>
      rw [hpc] at hnames
      cases second with
      | false => exact ⟨_, hnames⟩
      | true =>
        rcases hnames with hnames | hnames
        · exact ⟨_, hnames.1⟩
        · exact ⟨_, hnames.1⟩
    | _ =>
      rw [hpc] at hnames
      exact ⟨j, hnames⟩
  omega

theorem acquireShared (hr : (refs t)[i]? = some r) (hheld : r.held = false)
    (hf : (f r).tok = r.tok ∧ (f r).held = true ∧ (f r).excl = false)
    (hmay : (token r.tok).word.excl = false ∨ 0 < ex r.tok (refs t))
    (hbefore : ∀ k j, Names (refs t) k j (pc t) ↔ Exclusive (refs t) k j)
    (hafter : ∀ k j, Names ((refs t).modify i f) k j pc' ↔ Exclusive ((refs t).modify i f) k j)
    (hword : tok.word.count = (token r.tok).word.count + 1 ∧
      tok.word.excl = (token r.tok).word.excl ∧ tok.ref = (token r.tok).ref)
    (hgood : Good t ((refs t).modify i f) pc') :
    Inv (update token r.tok tok) (update refs t ((refs t).modify i f)) (update pc t pc') := by
  obtain ⟨hftok, hfheld, hfexcl⟩ := hf
  obtain ⟨hcount, hexcl, href⟩ := hword
  have hex : ∀ k, ex k ((refs t).modify i f) = ex k (refs t) := by
    intro k
    have hchange := ex_modify k hr hftok
    rw [hheld, hfexcl] at hchange
    simpa using hchange
  have hsh : ∀ k, sh k ((refs t).modify i f) = sh k (refs t) + (decide (r.tok = k)).toNat := by
    intro k
    have hchange := sh_modify k hr hftok
    rw [hheld, hfheld, hfexcl] at hchange
    simpa using hchange
  have hothers : ∀ u, u ≠ t → ex r.tok (refs u) = 0 := by
    intro u hu
    rcases hmay with hfree | hmine
    · exact h.nobody_of_excl hfree u
    · exact (h.others_of_ex hmine hu).1
  have hnames : ∀ k j, Names ((refs t).modify i f) k j pc' ↔ Names (refs t) k j (pc t) := by
    intro k j
    rw [hafter k j, hbefore k j, exclusive_modify_iff hr hftok]
    constructor
    · rintro (⟨_, hold⟩ | ⟨_, _, _, hset⟩)
      · exact hold
      · rw [hfexcl] at hset
        cases hset
    · intro hold
      refine .inl ⟨?_, hold⟩
      rintro rfl
      obtain ⟨a, ha, _, haheld, _⟩ := hold
      rw [hr, some.injEq] at ha
      rw [← ha, hheld] at haheld
      cases haheld
  apply h.replace
  · intro k' hk
    refine ⟨hex k', ?_⟩
    rw [hsh k', decide_eq_false (Ne.symm hk)]
    rfl
  · rw [hsh, decide_eq_true rfl, hcount]
    simp only [toNat_true]
    omega
  · rw [hex, hexcl]
  · intro hpos u hu
    rw [hex] at hpos
    exact h.alone r.tok t u hpos hu
  · intro _ u hu
    exact hothers u hu
  · intro j
    rw [href, hnames]
    exact h.names r.tok t j
  · intro u j _
    rw [href]
  · intro k' j _
    exact hnames k' j
  · exact hgood

theorem acquireExcl (hr : (refs t)[a.index]? = some r) (hheld : r.held = false)
    (hexcl : r.excl = true) (hfree : (token r.tok).word.excl = false ∧ (token r.tok).word.count = 0)
    (hbefore : ∀ k j, Names (refs t) k j (pc t) ↔ Exclusive (refs t) k j)
    (hgood : Good t ((refs t).modify a.index Ref.hold) (.checkRef a)) :
    Inv (update token r.tok { token r.tok with word := ⟨true, false, 0⟩ })
      (update refs t ((refs t).modify a.index Ref.hold))
      (update pc t (.checkRef a)) := by
  have hex : ∀ k, ex k ((refs t).modify a.index hold) =
      ex k (refs t) + (decide (r.tok = k)).toNat := by
    intro k
    have hchange := ex_modify k (f := hold) hr rfl
    simp only [hold, hheld, hexcl] at hchange
    simpa using hchange
  have hsh : ∀ k, sh k ((refs t).modify a.index hold) = sh k (refs t) := by
    intro k
    have hchange := sh_modify k (f := hold) hr rfl
    simp only [hold, hheld, hexcl] at hchange
    simpa using hchange
  have hnames : ∀ k j, Names ((refs t).modify a.index hold) k j (.checkRef (T := T) a) ↔
      Names (refs t) k j (pc t) := by
    intro k j
    have hnot : ¬ Exclusive (refs t) k a.index := by
      rintro ⟨b, hb, _, hbheld, _⟩
      rw [hr, some.injEq] at hb
      rw [← hb, hheld] at hbheld
      cases hbheld
    rw [hbefore k j, Names, exclusive_modify_iff hr rfl]
    constructor
    · rintro ⟨hne, ⟨_, hold⟩ | ⟨heq, _⟩⟩
      · exact hold
      · exact absurd heq hne
    · intro hold
      have hne : j ≠ a.index := fun heq => hnot (heq ▸ hold)
      exact ⟨hne, .inl ⟨hne, hold⟩⟩
  apply h.replace
  · intro k' hk
    refine ⟨?_, hsh k'⟩
    rw [hex k', decide_eq_false (Ne.symm hk)]
    rfl
  · rw [hsh, hfree.2]
  · rw [hex, decide_eq_true rfl, hfree.1]
    simp only [toNat_true, toNat_false]
    omega
  · intro _ u _
    exact h.nobody_of_count hfree.2 u
  · intro _ u _
    exact h.nobody_of_excl hfree.1 u
  · intro j
    rw [hnames]
    exact h.names r.tok t j
  · intro u j _
    exact Iff.rfl
  · intro k' j _
    exact hnames k' j
  · exact hgood

theorem store (hex : Exclusive (refs t) k i) (href : ∀ u j, u ≠ t → ref ≠ some (u, j))
    (hself : ∀ j, ref = some (t, j) ↔ Names (refs t) k j pc')
    (hnames : ∀ k' j, k' ≠ k → (Names (refs t) k' j pc' ↔ Names (refs t) k' j (pc t)))
    (hgood : Good t (refs t) pc') :
    Inv (update token k { token k with ref := ref }) (update refs t (refs t))
      (update pc t pc') := by
  have hpos : 0 < ex k (refs t) := ex_pos_iff.mpr ⟨i, hex⟩
  apply h.replace
  · intro k' _
    exact ⟨rfl, rfl⟩
  · rfl
  · rfl
  · intro _ u hu
    exact (h.others_of_ex hpos hu).2
  · intro _ u hu
    exact (h.others_of_ex hpos hu).1
  · exact hself
  · intro u j hu
    constructor
    · intro heq
      exact absurd heq (href u j hu)
    · intro heq
      exact absurd heq (h.ref_owner hex hu)
  · exact hnames
  · exact hgood

theorem releaseExcl {rel : Release} {count : Word}
    (hpc : pc t = .relExcl rel count) (hr : (refs t)[rel.index]? = some r)
    (hdone : rel.done (refs t) = (refs', pc')) (hword : (token r.tok).word = count) :
    Inv (update token r.tok { token r.tok with word := { count with excl := false } })
      (update refs t refs') (update pc t pc') := by
  have hgood := h.good t
  rw [hpc] at hgood
  obtain ⟨hfits, b, hb, hexcl⟩ := hgood.knows
  rw [hr, some.injEq] at hb
  subst hb
  have hheld : r.held = true := (hgood.held _ _ hr).mpr hfits.index_mem
  have hex : Exclusive (refs t) r.tok rel.index := ⟨r, hr, rfl, hheld, hexcl⟩
  have hpos : 0 < ex r.tok (refs t) := ex_pos_iff.mpr ⟨_, hex⟩
  have htally := done_tally hr hheld hfits hdone
  simp only [hexcl, Bool.true_and, Bool.not_true, Bool.false_and] at htally
  have hbit := h.excl_of_ex hpos
  have hone := h.ex_le_one (k := r.tok) (t := t)
  have hdrop := htally r.tok
  simp only [decide_true, toNat_true, toNat_false, Nat.add_zero] at hdrop
  have hnames : ∀ k j, Names refs' k j pc' ↔ Names (refs t) k j (pc t) := by
    intro k j
    rw [hpc]
    exact done_exclusive hr hfits hdone k j
  apply h.replace
  · intro k' hk
    have hother := htally k'
    rw [decide_eq_false (Ne.symm hk)] at hother
    simpa using hother
  · rw [hdrop.2, hword]
  · rw [hbit]
    simp only [toNat_true, toNat_false]
    omega
  · intro hleft
    omega
  · intro _ u hu
    exact (h.others_of_ex hpos hu).1
  · intro j
    rw [hnames]
    exact h.names r.tok t j
  · intro u j _
    exact Iff.rfl
  · intro k' j _
    exact hnames k' j
  · apply done_good (t := t) hgood.held hfits hgood.rooted hgood.single hdone

theorem releaseShared {rel : Release} {count : Word}
    (hpc : pc t = .relShared rel count) (hr : (refs t)[rel.index]? = some r)
    (hdone : rel.done (refs t) = (refs', pc')) (hword : (token r.tok).word = count) :
    Inv (update token r.tok
        { token r.tok with word := { count with count := count.count - 1 } })
      (update refs t refs') (update pc t pc') := by
  have hgood := h.good t
  rw [hpc] at hgood
  obtain ⟨hfits, b, hb, hexcl⟩ := hgood.knows
  rw [hr, some.injEq] at hb
  subst hb
  have hheld : r.held = true := (hgood.held _ _ hr).mpr hfits.index_mem
  have htally := done_tally hr hheld hfits hdone
  simp only [hexcl, Bool.false_and, Bool.not_false, Bool.true_and] at htally
  have hdrop := htally r.tok
  simp only [decide_true, toNat_true, toNat_false, Nat.add_zero] at hdrop
  have hsum := h.count r.tok
  have hle := weight_le_total (sh r.tok) refs t
  rw [hword] at hsum
  have hnames : ∀ k j, Names refs' k j pc' ↔ Names (refs t) k j (pc t) := by
    intro k j
    rw [hpc, done_exclusive hr hfits hdone k j]
    constructor
    · exact And.right
    · intro hold
      refine ⟨?_, hold⟩
      rintro rfl
      obtain ⟨c, hc, _, _, hset⟩ := hold
      rw [hr, some.injEq] at hc
      rw [← hc, hexcl] at hset
      cases hset
  apply h.replace
  · intro k' hk
    have hother := htally k'
    rw [decide_eq_false (Ne.symm hk)] at hother
    simpa using hother
  · rw [hword]
    simp only
    omega
  · rw [hdrop.1, hword]
  · intro hleft u hu
    rw [hdrop.1] at hleft
    exact h.alone r.tok t u hleft hu
  · intro _ u hu
    by_contra hne
    have hzero := h.alone r.tok u t (Nat.pos_of_ne_zero hne) (Ne.symm hu)
    omega
  · intro j
    rw [hnames]
    exact h.names r.tok t j
  · intro u j _
    exact Iff.rfl
  · intro k' j _
    exact hnames k' j
  · exact done_good hgood.held hfits hgood.rooted hgood.single hdone

end

end Inv

end Global

end DragonFly.LwktToken
