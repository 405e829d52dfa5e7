import DragonFly.LwktTokenRuns

/-!
# Exclusion of running threads

The calls keep the invariant as well.  Two threads that have all their tokens never share
one of them, unless both asked for it shared.
-/

namespace DragonFly.LwktToken

open Function List

variable {T K : Type}

section Sorting

variable [LinearOrder K] (refs : List (Ref K))

theorem sortInsert_perm (scan : Ref K) (i : ℕ) (array : List ℕ) :
    (sortInsert refs scan i array).Perm (i :: array) := by
  induction array with
  | nil => exact List.Perm.refl _
  | cons j rest ih =>
    rw [sortInsert]
    split_ifs
    · exact List.Perm.refl _
    · exact (ih.cons j).trans (List.Perm.swap i j rest)

theorem foldl_sortInsert_perm (l : List (Ref K × ℕ)) (array : List ℕ) :
    (l.foldl (fun array scan => sortInsert refs scan.1 scan.2 array) array).Perm
      (l.map Prod.snd ++ array) := by
  induction l generalizing array with
  | nil => exact List.Perm.refl _
  | cons scan l ih =>
    rw [foldl_cons, map_cons, cons_append]
    have hinsert := (sortInsert_perm refs scan.1 scan.2 array).append_left (l.map Prod.snd)
    exact (ih _).trans (hinsert.trans perm_middle)

theorem sortArray_perm : (sortArray refs).Perm (List.range refs.length) := by
  have hperm := foldl_sortInsert_perm refs refs.zipIdx []
  rw [append_nil, zipIdx_map_snd, ← range_eq_range'] at hperm
  exact hperm

end Sorting

section Exchange

variable {refs refs' : List (Ref K)}

theorem swapRefs_eq [LinearOrder K] (h : swapRefs refs = some (refs', swapped)) :
    (swapped = false ∧ refs' = refs) ∨
      (swapped = true ∧ ∃ l a b, refs = l ++ [a, b] ∧ refs' = l ++ [b, a] ∧ a.tok ≠ b.tok) := by
  unfold swapRefs at h
  split at h
  · next ref₁ ref₂ rest hreverse =>
      have hrefs : refs = rest.reverse ++ [ref₂, ref₁] := by
        rw [← reverse_reverse refs, hreverse]
        simp
      split_ifs at h with htok
      · cases h
        exact .inl ⟨rfl, rfl⟩
      · cases h
        refine .inr ⟨rfl, rest.reverse, ref₂, ref₁, hrefs, by simp, fun heq => htok heq.symm⟩
  · cases h

theorem getElem?_exchange (l : List (Ref K)) (a b : Ref K) (i : ℕ) :
    (l ++ [b, a])[swapPlace (l ++ [a, b]).length i]? = (l ++ [a, b])[i]? := by
  have hlen : (l ++ [a, b]).length = l.length + 2 := by simp
  rw [hlen]
  unfold swapPlace
  by_cases hlast : i + 1 = l.length + 2
  · have hi : i = l.length + 1 := by omega
    subst hi
    rw [if_pos rfl]
    simp
  · rw [if_neg hlast]
    by_cases hsecond : i + 2 = l.length + 2
    · have hi : i = l.length := by omega
      subst hi
      rw [if_pos rfl]
      simp
    · rw [if_neg hsecond]
      by_cases hlt : i < l.length
      · rw [getElem?_append_left hlt, getElem?_append_left hlt]
      · rw [getElem?_eq_none (by simp; omega), getElem?_eq_none (by simp; omega)]

theorem swapPlace_swapPlace (hn : 2 ≤ n) (i : ℕ) : swapPlace n (swapPlace n i) = i := by
  unfold swapPlace
  split_ifs <;> omega

end Exchange

variable {tok k : K} {excl block : Bool} {spin i : ℕ} {goal : Goal}

section Calls

variable [DecidableEq T] {t : T} {refs : List (Ref K)}

theorem Good.all_held (h : Good t refs pc) (hpc : heldPlaces refs.length pc = range refs.length)
    (hr : r ∈ refs) : r.held = true := by
  obtain ⟨i, hi⟩ := getElem?_of_mem hr
  rw [h.held i r hi, hpc]
  exact List.mem_range.mpr (List.getElem?_eq_some_iff.mp hi).1

theorem push_good (h : Good t refs (.run (T := T))) (hgoal : goal = .get ∨ goal = .attempt) :
    Good t (refs ++ [⟨tok, excl, excl, false⟩])
      (.tryCount (T := T) ⟨refs.length, excl, block, spin, goal⟩) := by
  have hlen : (refs ++ [(⟨tok, excl, excl, false⟩ : Ref K)]).length = refs.length + 1 := by simp
  have hfresh : (Attempt.mk refs.length excl block spin goal).fresh = true ∧
      (Attempt.mk refs.length excl block spin goal).before (refs.length + 1) =
        List.range refs.length ∧
      (Attempt.mk refs.length excl block spin goal).Fits (refs.length + 1) := by
    rcases hgoal with rfl | rfl
    · exact ⟨rfl, rfl, rfl⟩
    · exact ⟨rfl, rfl, rfl⟩
  have htop : (refs ++ [(⟨tok, excl, excl, false⟩ : Ref K)])[refs.length]? =
      some ⟨tok, excl, excl, false⟩ := by
    simp
  have hcases : ∀ (i : ℕ) (r : Ref K), (refs ++ [⟨tok, excl, excl, false⟩])[i]? = some r →
      refs[i]? = some r ∧ i < refs.length ∨ i = refs.length ∧ r = ⟨tok, excl, excl, false⟩ := by
    intro i r hr
    by_cases hi : i < refs.length
    · rw [getElem?_append_left hi] at hr
      exact .inl ⟨hr, hi⟩
    · have hlt := (List.getElem?_eq_some_iff.mp hr).1
      rw [hlen] at hlt
      have heq : i = refs.length := by omega
      rw [heq, htop, Option.some.injEq] at hr
      exact .inr ⟨heq, hr.symm⟩
  refine ⟨?_, ?_, ?_, ?_, ?_⟩
  · intro i r hr
    rw [hlen]
    change r.held = true ↔ i ∈ (Attempt.mk refs.length excl block spin goal).before _
    rw [hfresh.2.1, mem_range]
    rcases hcases i r hr with ⟨hold, hi⟩ | ⟨hi, rfl⟩
    · exact ⟨fun _ => hi, fun _ => h.all_held rfl (mem_of_getElem? hold)⟩
    · simp [hi]
  · intro j r hr hasked
    rcases hcases j r hr with ⟨hold, hj⟩ | ⟨hj, rfl⟩
    · obtain ⟨i, b, hle, hb, hroot⟩ := h.rooted j r hold hasked
      refine ⟨i, b, hle, ?_, hroot⟩
      rw [getElem?_append_left (by omega)]
      exact hb
    · exact ⟨j, _, le_rfl, hr, rfl, hasked⟩
  · change Single (if (Attempt.mk refs.length excl block spin goal).fresh then _ else _)
    rw [hfresh.1, if_pos rfl, dropLast_concat]
    exact h.single
  · rw [hlen]
    exact hfresh.2.2
  · exact ⟨_, htop, rfl⟩

theorem exclusive_push_iff (hheld : r.held = false) :
    Exclusive (refs ++ [r]) k i ↔ Exclusive refs k i := by
  unfold Exclusive
  by_cases hi : i < refs.length
  · rw [getElem?_append_left hi]
  · constructor
    · rintro ⟨b, hb, _, hbheld, _⟩
      have hmem : b = r := by
        rw [getElem?_append_right (by omega)] at hb
        have hin := mem_of_getElem? hb
        rwa [mem_singleton] at hin
      rw [hmem, hheld] at hbheld
      cases hbheld
    · rintro ⟨b, hb, _⟩
      exact absurd (List.getElem?_eq_some_iff.mp hb).1 hi

theorem exchange_good {a b : Ref K} (h : Good t (l ++ [a, b]) (.run (T := T)))
    (htok : a.tok ≠ b.tok) : Good t (l ++ [b, a]) (.swapTest (T := T) false) := by
  have hlen : (l ++ [a, b]).length = l.length + 2 := by simp
  have hlen' : (l ++ [b, a]).length = l.length + 2 := by simp
  have hplace : ∀ (i : ℕ) (r : Ref K), (l ++ [b, a])[i]? = some r →
      (l ++ [a, b])[swapPlace (l.length + 2) i]? = some r := by
    intro i r hr
    have hback := getElem?_exchange l b a i
    rw [hlen'] at hback
    rw [hback]
    exact hr
  have hforth : ∀ (i : ℕ) (r : Ref K), (l ++ [a, b])[i]? = some r →
      (l ++ [b, a])[swapPlace (l.length + 2) i]? = some r := by
    intro i r hr
    have hmove := getElem?_exchange l a b i
    rw [hlen] at hmove
    rw [hmove]
    exact hr
  refine ⟨?_, ?_, ?_, ?_⟩
  · intro i r hr
    have hlt := (List.getElem?_eq_some_iff.mp hr).1
    have hheld : r.held = true := h.all_held rfl (List.mem_of_getElem? (hplace i r hr))
    exact ⟨fun _ => mem_range.mpr hlt, fun _ => hheld⟩
  · intro j r hr hasked
    have hjlt := (List.getElem?_eq_some_iff.mp hr).1
    obtain ⟨i, c, hle, hc, hctok, hcexcl⟩ := h.rooted _ r (hplace j r hr) hasked
    have hilt := (List.getElem?_eq_some_iff.mp hc).1
    rw [hlen] at hilt
    rw [hlen'] at hjlt
    refine ⟨swapPlace (l.length + 2) i, c, ?_, hforth i c hc, hctok, hcexcl⟩
    -- only the two on top can change their order, and those are of different tokens
    by_contra hgt
    have hpair : i = l.length ∧ swapPlace (l.length + 2) j = l.length + 1 := by
      unfold swapPlace at hle hgt ⊢
      split_ifs at hle hgt ⊢ <;> omega
    have ha : c = a := by
      rw [hpair.1] at hc
      simpa using hc.symm
    have hb : r = b := by
      have hr' := hplace j r hr
      rw [hpair.2] at hr'
      simpa using hr'.symm
    rw [ha, hb] at hctok
    exact htok hctok
  · intro i j r r' hr hr' hsame hexcl hexcl'
    have heq := h.single _ _ r r' (hplace i r hr) (hplace j r' hr') hsame hexcl hexcl'
    have hback := congrArg (swapPlace (l.length + 2)) heq
    rw [swapPlace_swapPlace (by omega), swapPlace_swapPlace (by omega)] at hback
    exact hback
  · refine ⟨a, b, ?_, ?_, ?_, htok⟩
    · rw [hlen']
      simp
    · rw [hlen']
      simp
    · rw [hlen']
      omega

end Calls

/-- The thread is between the exchange and the stores of `lwkt_token_swap`. -/
def Pc.swapping : Pc T → Bool
  | .swapTest _ | .swapStore _ => true
  | _ => false

/-- `t_ref` names an exclusive reference; inside of `lwkt_token_swap` it may still name the place
that the reference was exchanged with. -/
theorem exclusive_of_names (h : Names refs k i pc) : Exclusive refs k i ∨
    pc.swapping = true ∧ Exclusive refs k (swapPlace refs.length i) := by
  cases pc with
  | checkRef a | setRef a | relExcl r shared | relRestore r => exact .inl h.2
  | swapTest second | swapStore second =>
    cases second with
    | false => exact .inr ⟨rfl, h⟩
    | true =>
      obtain ⟨htop, rfl⟩ | hother := h
      · have hplace : swapPlace refs.length (refs.length - 2) = refs.length - 1 := by
          unfold swapPlace
          split_ifs <;> omega
        rw [hplace]
        exact .inr ⟨rfl, htop⟩
      · exact .inl hother.1
  | _ => exact .inl h

section Runs

variable [Fintype T] [DecidableEq T] [LinearOrder K] {token : K → Token T}
  {refs : T → List (Ref K)} {pc : T → Pc T} {t : T} {refs' : List (Ref K)} {pc' : Pc T}

theorem Inv.turn
    (h : Inv token refs pc) (hnames : ∀ k j, Names (refs t) k j pc' ↔ Names (refs t) k j (pc t))
    (hgood : Good t (refs t) pc') : Inv token (update refs t (refs t)) (update pc t pc') :=
  h.quiet (fun _ => ⟨rfl, rfl, rfl⟩) (fun _ => ⟨rfl, rfl⟩) hnames hgood

theorem Inv.push (h : Inv token refs pc) (hpc : pc t = .run) (hgoal : goal = .get ∨ goal = .attempt)
    (hpush : LwktToken.push (refs t) tok excl block spin goal = some (refs', pc')) :
    Inv token (update refs t refs') (update pc t pc') := by
  have hgood := h.good t
  rw [hpc] at hgood
  unfold LwktToken.push at hpush
  split_ifs at hpush
  cases hpush
  apply h.quiet
  · exact fun _ => ⟨rfl, rfl, rfl⟩
  · intro k
    exact ⟨ex_push k rfl, sh_push k rfl⟩
  · intro k j
    rw [hpc]
    exact exclusive_push_iff rfl
  · exact push_good hgood hgoal

theorem Inv.swap (h : Inv token refs pc) (hpc : pc t = .run)
    (hswap : swapRefs (refs t) = some (refs', swapped)) :
    Inv token (update refs t refs') (update pc t (if swapped then .swapTest false else .run)) := by
  have hgood := h.good t
  rcases swapRefs_eq hswap with ⟨rfl, rfl⟩ | ⟨rfl, l, a, b, hrefs, rfl, htok⟩
  · apply h.turn
    · intro k j
      rw [hpc]
      exact Iff.rfl
    · rw [hpc] at hgood
      exact hgood
  · rw [hpc, hrefs] at hgood
    have hperm : (l ++ [b, a]).Perm (refs t) := by
      rw [hrefs]
      exact (List.Perm.swap a b []).append_left l
    apply h.quiet
    · exact fun _ => ⟨rfl, rfl, rfl⟩
    · intro k
      exact ⟨hperm.countP_eq _, hperm.countP_eq _⟩
    · intro k j
      rw [hpc, hrefs]
      have hlen : (l ++ [b, a]).length = (l ++ [a, b]).length := by simp
      simp only [if_true, Names, Exclusive, hlen, getElem?_exchange]
    · exact exchange_good hgood htok

theorem Inv.call (h : Inv token refs pc) {call : Call K}
    (hcall : callStep (refs t) (pc t) call = some (refs', pc')) :
    Inv token (update refs t refs') (update pc t pc') := by
  have hgood := h.good t
  cases hpc : pc t with
  | run =>
    rw [hpc] at hcall hgood
    cases call with
    | gettoken tok tokenSpin | gettokenShared tok tokenSpin => exact h.push hpc (.inl rfl) hcall
    | trytoken tok => exact h.push hpc (.inr rfl) hcall
    | reltoken tok =>
      simp only [callStep] at hcall
      split_ifs at hcall with htop
      cases hcall
      apply h.turn
      · intro k j
        rw [hpc]
        exact Iff.rfl
      · refine ⟨hgood.held, hgood.rooted, hgood.single, ?_⟩
        have hne : refs t ≠ [] := by
          intro hnil
          rw [hnil] at htop
          cases htop
        have hpos := length_pos_iff.mpr hne
        simp only [Knows, Release.Fits]
        omega
    | swap =>
      simp only [callStep, Option.map_eq_some_iff] at hcall
      obtain ⟨⟨refs₁, swapped⟩, hswap, heq⟩ := hcall
      cases heq
      exact h.swap hpc hswap
    | switch =>
      cases hcall
      apply h.turn
      · intro k j
        rw [hpc, names_startRelease]
        exact Iff.rfl
      · apply startRelease_good _ (below_nodup _) _ hgood.rooted hgood.single
        · apply HeldAre.congr hgood.held
          intro i _
          rw [mem_below]
          exact mem_range
        · intro i hi
          exact mem_below.mp hi
    | getalltokens spinning tokenSpin => cases hcall
  | out confirm =>
    rw [hpc] at hcall hgood
    cases call with
    | getalltokens spinning tokenSpin =>
      cases hcall
      have hperm : (if spinning then sortArray (refs t) else List.range (refs t).length).Perm
          (List.range (refs t).length) := by
        split_ifs
        · exact sortArray_perm (refs t)
        · exact List.Perm.refl _
      apply h.turn
      · intro k j
        rw [hpc]
        generalize (if spinning then sortArray (refs t) else List.range (refs t).length) = order
        cases order with
        | nil =>
          simp only [nextAttempt]
          split_ifs
          · exact Iff.rfl
          · exact Iff.rfl
        | cons i rest => exact Iff.rfl
      · have hheld : HeldAre (refs t) [] := hgood.held
        apply nextAttempt_good hheld _ hgood.rooted hgood.single
        rw [append_nil]
        exact hperm
    | _ => cases hcall
  | _ =>
    rw [hpc] at hcall
    cases call <;> cases hcall

theorem inv_of_runs {s : State T K} (h : Runs s) : Inv s.token s.refs s.pc := by
  apply h.invariant fun s => Inv s.token s.refs s.pc
  · rintro s rfl
    constructor
    · intro k
      exact (total_eq_zero rfl).symm
    · intro k
      exact (total_eq_zero rfl).symm
    · intro k t u ht
      exact absurd ht (Nat.lt_irrefl 0)
    · intro k t i
      constructor
      · exact nofun
      · rintro ⟨r, hr, _⟩
        cases hr
    · intro t
      exact ⟨nofun, nofun, nofun, trivial⟩
  · rintro s ⟨t, call⟩ s' hinv _ hnext
    cases call with
    | some call =>
      simp only [State.next, Option.map_eq_some_iff] at hnext
      obtain ⟨⟨refs', pc'⟩, hcall, rfl⟩ := hnext
      exact hinv.call hcall
    | none =>
      simp only [State.next, Option.bind_eq_some_iff, Option.map_eq_some_iff] at hnext
      obtain ⟨ref, href, o, hstep, rfl⟩ := hnext
      exact hinv.step href hstep

/-- Running threads exclude each other, `t_count` and `t_ref` describe what is held, and a
thread that runs or is about to confirm its stack holds all of it. -/
theorem running_exclude_and_counted {s : State T K} (h : Runs s) :
    (∀ t u, t ≠ u → (∀ r ∈ s.refs t, r.held = true) → (∀ r ∈ s.refs u, r.held = true) →
      ∀ r ∈ s.refs t, ∀ r' ∈ s.refs u, r.tok = r'.tok → r.asked = false ∧ r'.asked = false) ∧
    (∀ k, (s.token k).word.value =
      tokIncr * total (sh k) s.refs + tokExclusive * total (ex k) s.refs +
        tokExclreq * (s.token k).word.exclreq.toNat ∧ total (ex k) s.refs ≤ 1) ∧
    (∀ k t i, (s.token k).ref = some (t, i) → Exclusive (s.refs t) k i ∨
      (s.pc t).swapping = true ∧ Exclusive (s.refs t) k (swapPlace (s.refs t).length i)) ∧
    ∀ t, s.pc t = .run ∨ s.pc t = .confirm → ∀ r ∈ s.refs t, r.held = true := by
  have hinv := inv_of_runs h
  have hexclude : ∀ t u, t ≠ u → (∀ r ∈ s.refs t, r.held = true) →
      (∀ r ∈ s.refs u, r.held = true) → ∀ r ∈ s.refs t, ∀ r' ∈ s.refs u, r.tok = r'.tok →
      r.asked = false := by
    intro t u hne ht hu r hr r' hr' htok
    cases hasked : r.asked with
    | false => rfl
    | true =>
      obtain ⟨j, hj⟩ := getElem?_of_mem hr
      obtain ⟨i, b, _, hb, hbtok, hbexcl⟩ := (hinv.good t).rooted j r hj hasked
      have hheld : b.held = true := ht b (mem_of_getElem? hb)
      have hpos : 0 < ex r.tok (s.refs t) := ex_pos_iff.mpr ⟨i, b, hb, hbtok, hheld, hbexcl⟩
      obtain ⟨hex, hsh⟩ := hinv.others_of_ex hpos hne.symm
      have hother := sh_pos_of hr' htok.symm (hu r' hr')
      omega
  refine ⟨?_, ?_, ?_, ?_⟩
  · intro t u hne ht hu r hr r' hr' htok
    exact ⟨hexclude t u hne ht hu r hr r' hr' htok,
      hexclude u t hne.symm hu ht r' hr' r hr htok.symm⟩
  · intro k
    have hle : (s.token k).word.excl.toNat ≤ 1 := Bool.toNat_le _
    rw [Word.value, hinv.count k, hinv.excl k]
    rw [hinv.excl k] at hle
    exact ⟨by omega, hle⟩
  · intro k t i href
    exact exclusive_of_names ((hinv.names k t i).mp href)
  · intro t hpc r hr
    have hgood := hinv.good t
    apply hgood.all_held _ hr
    obtain hpc | hpc := hpc <;> rw [hpc] <;> rfl

end Runs

def walks (t : Fin 2) (n : ℕ) : List (Fin 2 × Option (Call (Fin 2))) :=
  List.replicate n (t, none)

/-- Thread 0 has token 0 twice, thread 1 has token 1 shared. -/
theorem running_exclude_and_counted_two_threads :
    ∃ s : State (Fin 2) (Fin 2), Runs s ∧ s.pc 0 = .run ∧ s.pc 1 = .run ∧
      (∀ r ∈ s.refs 0, ∀ r' ∈ s.refs 1, r.tok = r'.tok → r.asked = false ∧ r'.asked = false) ∧
      (s.token 0).word.value = 5 ∧ total (sh 0) s.refs = 1 ∧ total (ex 0) s.refs = 1 ∧
      Exclusive (s.refs 0) 0 0 := by
  have hrun : ((runEvents (fun _ _ => True) State.next (State.initial (T := Fin 2) (K := Fin 2))
      ((0, some (.gettoken 0 0)) :: walks 0 5 ++ (0, some (.gettoken 0 0)) :: walks 0 3 ++
        (1, some (.gettokenShared 1 0)) :: walks 1 3)).map
      fun s => (s.pc, s.token 0, total (sh 0) s.refs, total (ex 0) s.refs)) =
      some (fun _ => .run, ⟨⟨true, false, 1⟩, some (0, 0)⟩, 1, 1) := by
    decide +kernel
  have hstart : Runs (State.initial (T := Fin 2) (K := Fin 2)) := .start rfl
  obtain ⟨s, hruns, hview⟩ := hstart.view hrun
  simp only [Prod.mk.injEq] at hview
  obtain ⟨hpc, htoken, hsh, hex⟩ := hview
  obtain ⟨hexclude, _, hnames, hheld⟩ := running_exclude_and_counted hruns
  have hpc₀ : s.pc 0 = .run := congrFun hpc 0
  have hpc₁ : s.pc 1 = .run := congrFun hpc 1
  have hvalue : (s.token 0).word.value = 5 := by
    rw [htoken]
    rfl
  have href : (s.token 0).ref = some (0, 0) := by
    rw [htoken]
  have hswap : (s.pc 0).swapping = false := by
    rw [hpc₀]
    rfl
  have hexclusive : Exclusive (s.refs 0) 0 0 := by
    obtain hexclusive | ⟨hswapping, _⟩ := hnames 0 0 0 href
    · exact hexclusive
    · rw [hswap] at hswapping
      cases hswapping
  exact ⟨s, hruns, hpc₀, hpc₁, hexclude 0 1 (by decide) (hheld 0 (.inl hpc₀))
    (hheld 1 (.inl hpc₁)), hvalue, hsh, hex, hexclusive⟩

/-- Thread 0 has token 0 and thread 1 asks for it: `TOK_EXCLREQ` is in `t_count`. And thread 0
has exchanged its tokrefs of tokens 0 and 1, while `t_ref` of token 0 names the lower place. -/
theorem request_counted_and_exchanged_named :
    (∃ s : State (Fin 2) (Fin 2), Runs s ∧ (s.token 0).word.value ≠
      tokIncr * total (sh 0) s.refs + tokExclusive * total (ex 0) s.refs) ∧
    ∃ s : State (Fin 2) (Fin 2), Runs s ∧ (s.token 0).ref = some (0, 0) ∧
      ¬ Exclusive (s.refs 0) 0 0 := by
  have hstart : Runs (State.initial (T := Fin 2) (K := Fin 2)) := .start rfl
  constructor
  · have hrun : ((runEvents (fun _ _ => True) State.next (State.initial (T := Fin 2) (K := Fin 2))
        ((0, some (.gettoken 0 0)) :: walks 0 5 ++ (1, some (.gettoken 0 0)) :: walks 1 3)).map
        fun s => ((s.token 0).word.value, total (sh 0) s.refs, total (ex 0) s.refs)) =
        some (3, 0, 1) := by
      decide +kernel
    obtain ⟨s, hreach, hview⟩ := hstart.view hrun
    simp only [Prod.mk.injEq] at hview
    obtain ⟨hvalue, hsh, hex⟩ := hview
    refine ⟨s, hreach, ?_⟩
    rw [hvalue, hsh, hex]
    decide
  · have hrun : ((runEvents (fun _ _ => True) State.next (State.initial (T := Fin 2) (K := Fin 2))
        ((0, some (.gettoken 0 0)) :: walks 0 5 ++ (0, some (.gettoken 1 0)) :: walks 0 5 ++
          [(0, some .swap)])).map fun s => ((s.token 0).ref, (s.refs 0).map (·.tok))) =
        some (some (0, 0), [1, 0]) := by
      decide +kernel
    obtain ⟨s, hreach, hview⟩ := hstart.view hrun
    simp only [Prod.mk.injEq] at hview
    obtain ⟨href, htoks⟩ := hview
    refine ⟨s, hreach, href, ?_⟩
    rintro ⟨r, hr, htok, _⟩
    have hfirst : ((s.refs 0).map (·.tok))[0]? = some r.tok := by
      rw [getElem?_map, hr]
      rfl
    rw [htoks, htok] at hfirst
    cases hfirst

end DragonFly.LwktToken
