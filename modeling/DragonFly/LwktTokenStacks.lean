import DragonFly.LwktTokenInvariant

/-!
# Stacks of tokrefs

What the operations on one thread's stack do to the facts that are kept about it.
-/

namespace DragonFly.LwktToken

open List

variable {T K : Type}

/-- The tokrefs that are held are those at the places of a list. -/
def HeldAre (refs : List (Ref K)) (places : List ℕ) : Prop :=
  ∀ (i : ℕ) (r : Ref K), refs[i]? = some r → (r.held = true ↔ i ∈ places)

theorem HeldAre.congr (h : HeldAre refs l) (hl : ∀ i, i < refs.length → (i ∈ l ↔ i ∈ l')) :
    HeldAre refs l' := by
  intro i r hr
  have hi : i < refs.length := (List.getElem?_eq_some_iff.mp hr).1
  exact (h i r hr).trans (hl i hi)

variable {j : ℕ} {k : K}

section Modify

variable {refs : List (Ref K)} {i : ℕ} {r : Ref K} {f : Ref K → Ref K}

theorem getElem?_modify_self (h : refs[i]? = some r) : (refs.modify i f)[i]? = some (f r) := by
  rw [getElem?_modify, h]
  simp

theorem getElem?_modify_of_ne (hj : j ≠ i) : (refs.modify i f)[j]? = refs[j]? := by
  rw [getElem?_modify]
  cases refs[j]? with
  | none => rfl
  | some a => simp [hj.symm]

theorem getElem?_of_modify (h : (refs.modify i f)[j]? = some r') :
    ∃ r, refs[j]? = some r ∧ r' = if j = i then f r else r := by
  by_cases hj : j = i
  · subst hj
    cases hr : refs[j]? with
    | none =>
      rw [getElem?_modify, hr] at h
      cases h
    | some r =>
      rw [getElem?_modify_self hr] at h
      exact ⟨r, rfl, by rw [if_pos rfl]; exact (Option.some.inj h).symm⟩
  · rw [getElem?_modify_of_ne hj] at h
    exact ⟨r', h, by rw [if_neg hj]⟩

theorem Single.modify
    (h : Single refs) (hf : ∀ r : Ref K, (f r).tok = r.tok ∧ ((f r).excl = true → r.excl = true)) :
    Single (refs.modify i f) := by
  intro j j' a a' ha ha' htok hexcl hexcl'
  obtain ⟨b, hb, rfl⟩ := getElem?_of_modify ha
  obtain ⟨b', hb', rfl⟩ := getElem?_of_modify ha'
  have hsame : ∀ (j : ℕ) (b : Ref K), (if j = i then f b else b).tok = b.tok ∧
      ((if j = i then f b else b).excl = true → b.excl = true) := by
    intro j b
    split_ifs
    · exact hf b
    · exact ⟨rfl, id⟩
  rw [(hsame j b).1, (hsame j' b').1] at htok
  exact h j j' b b' hb hb' htok ((hsame j b).2 hexcl) ((hsame j' b').2 hexcl')

theorem Rooted.modify (h : Rooted refs)
    (hf : ∀ r : Ref K, (f r).tok = r.tok ∧ (f r).excl = r.excl ∧ (f r).asked = r.asked) :
    Rooted (refs.modify i f) := by
  intro j a ha hasked
  obtain ⟨b, hb, rfl⟩ := getElem?_of_modify ha
  have hsame : (if j = i then f b else b).tok = b.tok ∧
      (if j = i then f b else b).asked = b.asked := by
    split_ifs
    · exact ⟨(hf b).1, (hf b).2.2⟩
    · exact ⟨rfl, rfl⟩
  rw [hsame.2] at hasked
  obtain ⟨root, c, hle, hc, htok, hexcl⟩ := h j b hb hasked
  rw [hsame.1]
  by_cases hroot : root = i
  · subst hroot
    refine ⟨root, f c, hle, getElem?_modify_self hc, ?_, ?_⟩
    · rw [(hf c).1]
      exact htok
    · rw [(hf c).2.1]
      exact hexcl
  · refine ⟨root, c, hle, ?_, htok, hexcl⟩
    rw [getElem?_modify_of_ne hroot]
    exact hc

theorem HeldAre.hold (h : HeldAre refs l) (hf : ∀ r : Ref K, (f r).held = true) :
    HeldAre (refs.modify i f) (i :: l) := by
  intro j a ha
  obtain ⟨b, hb, rfl⟩ := getElem?_of_modify ha
  rw [mem_cons]
  split_ifs with hj
  · exact ⟨fun _ => .inl hj, fun _ => hf b⟩
  · rw [h j b hb]
    exact ⟨.inr, fun hmem => hmem.resolve_left hj⟩

theorem HeldAre.free (h : HeldAre refs (i :: l)) (hi : i ∉ l) :
    HeldAre (refs.modify i Ref.free) l := by
  intro j a ha
  obtain ⟨b, hb, rfl⟩ := getElem?_of_modify ha
  split_ifs with hj
  · subst hj
    exact ⟨nofun, fun hmem => absurd hmem hi⟩
  · rw [h j b hb, mem_cons]
    exact ⟨fun hmem => hmem.resolve_left hj, .inr⟩

theorem exclusive_modify_iff (h : refs[i]? = some r) (htok : (f r).tok = r.tok) :
    Exclusive (refs.modify i f) k j ↔ (j ≠ i ∧ Exclusive refs k j) ∨
        (j = i ∧ r.tok = k ∧ (f r).held = true ∧ (f r).excl = true) := by
  by_cases hj : j = i
  · subst hj
    constructor
    · rintro ⟨a, ha, hk, hheld, hexcl⟩
      rw [getElem?_modify_self h, Option.some.injEq] at ha
      subst ha
      exact .inr ⟨rfl, htok ▸ hk, hheld, hexcl⟩
    · rintro (⟨hne, _⟩ | ⟨_, hk, hheld, hexcl⟩)
      · exact absurd rfl hne
      · exact ⟨f r, getElem?_modify_self h, htok.trans hk, hheld, hexcl⟩
  · unfold Exclusive
    rw [getElem?_modify_of_ne hj]
    constructor
    · intro hex
      exact .inl ⟨hj, hex⟩
    · rintro (⟨_, hex⟩ | ⟨heq, _⟩)
      · exact hex
      · exact absurd heq hj

end Modify

section Drop

variable {refs : List (Ref K)}

theorem getElem?_dropLast_of_some (h : refs.dropLast[j]? = some r) :
    refs[j]? = some r ∧ j + 1 < refs.length := by
  rw [getElem?_dropLast] at h
  split_ifs at h with hj
  exact ⟨h, by omega⟩

theorem getElem?_dropLast_of_lt (hj : j + 1 < refs.length) : refs.dropLast[j]? = refs[j]? := by
  rw [getElem?_dropLast, if_pos (by omega)]

theorem Single.dropLast (h : Single refs) : Single refs.dropLast := by
  intro i j r r' hr hr'
  exact h i j r r' (getElem?_dropLast_of_some hr).1 (getElem?_dropLast_of_some hr').1

theorem Rooted.dropLast (h : Rooted refs) : Rooted refs.dropLast := by
  intro j r hr hasked
  obtain ⟨hr, hj⟩ := getElem?_dropLast_of_some hr
  obtain ⟨i, b, hle, hb, htok, hexcl⟩ := h j r hr hasked
  refine ⟨i, b, hle, ?_, htok, hexcl⟩
  rw [getElem?_dropLast_of_lt (by omega)]
  exact hb

theorem exclusive_dropLast_iff :
    Exclusive refs.dropLast k j ↔ j + 1 ≠ refs.length ∧ Exclusive refs k j := by
  constructor
  · rintro ⟨r, hr, hex⟩
    obtain ⟨hr, hj⟩ := getElem?_dropLast_of_some hr
    exact ⟨by omega, r, hr, hex⟩
  · rintro ⟨hj, r, hr, hex⟩
    have hlt : j < refs.length := (List.getElem?_eq_some_iff.mp hr).1
    exact ⟨r, by rw [getElem?_dropLast_of_lt (by omega)]; exact hr, hex⟩

theorem HeldAre.dropLast
    (h : HeldAre refs (List.range (refs.length - 1)) ∨ HeldAre refs (List.range refs.length)) :
    HeldAre refs.dropLast (List.range refs.dropLast.length) := by
  intro j r hr
  obtain ⟨hr, hj⟩ := getElem?_dropLast_of_some hr
  rw [length_dropLast, mem_range]
  rcases h with h | h
  · rw [h j r hr, mem_range]
  · rw [h j r hr, mem_range]
    omega

end Drop

section Tallies

variable [DecidableEq K] {refs : List (Ref K)} {i : ℕ} {r : Ref K} (k : K)

theorem ex_modify (h : refs[i]? = some r) (htok : (f r).tok = r.tok) :
    ex k (refs.modify i f) + (r.held && r.excl && decide (r.tok = k)).toNat =
      ex k refs + ((f r).held && (f r).excl && decide (r.tok = k)).toNat := by
  have hcount := countP_modify (fun r => r.held && r.excl && decide (r.tok = k)) (f := f) h
  rw [htok] at hcount
  exact hcount

theorem sh_modify (h : refs[i]? = some r) (htok : (f r).tok = r.tok) :
    sh k (refs.modify i f) + (r.held && !r.excl && decide (r.tok = k)).toNat =
      sh k refs + ((f r).held && !(f r).excl && decide (r.tok = k)).toNat := by
  have hcount := countP_modify (fun r => r.held && !r.excl && decide (r.tok = k)) (f := f) h
  rw [htok] at hcount
  exact hcount

theorem ex_dropLast (h : refs[i]? = some r) (hi : i + 1 = refs.length) :
    ex k refs.dropLast + (r.held && r.excl && decide (r.tok = k)).toNat = ex k refs :=
  countP_dropLast (fun r => r.held && r.excl && decide (r.tok = k)) h hi

theorem sh_dropLast (h : refs[i]? = some r) (hi : i + 1 = refs.length) :
    sh k refs.dropLast + (r.held && !r.excl && decide (r.tok = k)).toNat = sh k refs :=
  countP_dropLast (fun r => r.held && !r.excl && decide (r.tok = k)) h hi

theorem ex_push (hheld : r.held = false) : ex k (refs ++ [r]) = ex k refs := by
  simp [ex, countP_append, hheld]

theorem sh_push (hheld : r.held = false) : sh k (refs ++ [r]) = sh k refs := by
  simp [sh, countP_append, hheld]

end Tallies

/-! ## The facts at the points of the code -/

section Points

variable [DecidableEq T] {t : T} {refs : List (Ref K)}

theorem startRelease_good (hheld : HeldAre refs l) (hnodup : l.Nodup)
    (hlt : ∀ i ∈ l, i < refs.length) (hrooted : Rooted refs) (hsingle : Single refs)
    (confirm : Bool) : Good t refs (startRelease confirm l) := by
  cases l with
  | nil => exact ⟨hheld, hrooted, hsingle, trivial⟩
  | cons i rest => exact ⟨hheld, hrooted, hsingle, hnodup, hlt⟩

theorem nextAttempt_good (hheld : HeldAre refs done)
    (hperm : (rest ++ done).Perm (List.range refs.length)) (hrooted : Rooted refs)
    (hsingle : Single refs) (confirm : Bool) (tokenSpin : ℕ) :
    Good t refs (nextAttempt refs done confirm tokenSpin rest) := by
  cases rest with
  | nil =>
    have hall : HeldAre refs (List.range refs.length) := by
      apply hheld.congr
      intro i _
      exact hperm.mem_iff
    unfold nextAttempt
    split_ifs
    · exact ⟨hall, hrooted, hsingle, trivial⟩
    · exact ⟨hall, hrooted, hsingle, trivial⟩
  | cons i rest =>
    refine ⟨hheld, hrooted, hsingle, hperm, ?_⟩
    have hi : i < refs.length := by
      rw [← mem_range, ← hperm.mem_iff]
      exact mem_append_left _ mem_cons_self
    refine ⟨refs[i], getElem?_eq_getElem hi, ?_⟩
    rw [getElem?_eq_getElem hi]
    rfl

theorem success_good
    {a : Attempt} (hheld : HeldAre refs (a.after refs.length)) (hfits : a.Fits refs.length)
    (hrooted : Rooted refs) (hsingle : Single refs) : Good t refs (a.success refs) := by
  unfold Attempt.success
  unfold Attempt.after at hheld
  unfold Attempt.Fits at hfits
  cases hgoal : a.goal with
  | get | attempt =>
    rw [hgoal] at hheld
    exact ⟨hheld, hrooted, hsingle, trivial⟩
  | all rest done confirm tokenSpin =>
    rw [hgoal] at hheld hfits
    apply nextAttempt_good hheld _ hrooted hsingle
    exact perm_middle.trans hfits

theorem below_nodup (n : ℕ) : (below n).Nodup :=
  nodup_reverse.mpr nodup_range

theorem mem_below : i ∈ below n ↔ i < n := by
  rw [below, mem_reverse, mem_range]

theorem failure_good {a : Attempt} (hheld : HeldAre refs (a.before refs.length))
    (hfits : a.Fits refs.length) (hmode : Mode refs a.index a.excl) (hrooted : Rooted refs)
    (hsingle : Single refs) (hfailure : a.failure refs = (refs', pc')) : Good t refs' pc' := by
  unfold Attempt.failure at hfailure
  by_cases hspin : 0 < a.spin
  · rw [if_pos hspin] at hfailure
    cases hfailure
    refine ⟨hheld, hrooted, ?_, hfits, hmode⟩
    split_ifs
    · exact hsingle.dropLast
    · exact hsingle
  · rw [if_neg hspin] at hfailure
    unfold Attempt.before at hheld
    unfold Attempt.Fits at hfits
    cases hgoal : a.goal with
    | get =>
      rw [hgoal] at hfailure hheld
      cases hfailure
      apply startRelease_good _ (below_nodup _) _ hrooted hsingle
      · apply hheld.congr
        intro i _
        rw [mem_range, mem_below]
      · intro i hi
        rw [mem_below] at hi
        omega
    | attempt =>
      rw [hgoal] at hfailure hheld
      cases hfailure
      exact ⟨HeldAre.dropLast (.inl hheld), hrooted.dropLast, hsingle.dropLast, trivial⟩
    | all rest done confirm tokenSpin =>
      rw [hgoal] at hfailure hheld hfits
      cases hfailure
      have hnodup : (a.index :: (rest ++ done)).Nodup := hfits.nodup_iff.mpr nodup_range
      apply startRelease_good hheld _ _ hrooted hsingle
      · exact (nodup_append.mp (nodup_cons.mp hnodup).2).2.1
      · intro i hi
        rw [← mem_range, ← hfits.mem_iff]
        exact mem_cons_of_mem _ (mem_append_right _ hi)

theorem done_good {r : Release} (hheld : HeldAre refs (r.places refs.length))
    (hfits : r.Fits refs.length) (hrooted : Rooted refs) (hsingle : Single refs)
    (hdone : r.done refs = (refs', pc')) : Good t refs' pc' := by
  unfold Release.done at hdone
  unfold Release.places at hheld
  unfold Release.Fits at hfits
  cases hafter : r.after with
  | pop =>
    rw [hafter] at hdone hheld
    cases hdone
    exact ⟨HeldAre.dropLast (.inr hheld), hrooted.dropLast, hsingle.dropLast, trivial⟩
  | out confirm =>
    rw [hafter] at hdone hheld hfits
    cases hdone
    obtain ⟨hnodup, hlt⟩ := hfits
    apply startRelease_good
    · exact hheld.free (nodup_cons.mp hnodup).1
    · exact (nodup_cons.mp hnodup).2
    · intro i hi
      rw [length_modify]
      exact hlt i (mem_cons_of_mem _ hi)
    · exact hrooted.modify fun _ => ⟨rfl, rfl, rfl⟩
    · exact hsingle.modify fun _ => ⟨rfl, id⟩

end Points

end DragonFly.LwktToken
