import DragonFly.PhaseTotals
import DragonFly.LwktTokenModel

/-!
# The accounts of tokens

`t_count` counts the tokrefs through which a token has been acquired.  One thread can have
the exclusive bit, and then only that thread has tokrefs at all.  `t_ref` follows from the
stacks of the threads, up to the stores that a thread still has to do.
-/

namespace DragonFly.LwktToken

open Function List

variable {T K : Type}

section Stacks

variable [DecidableEq K]

/-- The tokrefs that have the exclusive bit of a token. -/
def ex (k : K) (refs : List (Ref K)) : ℕ :=
  refs.countP fun r => r.held && r.excl && decide (r.tok = k)

/-- The tokrefs that a token counts. -/
def sh (k : K) (refs : List (Ref K)) : ℕ :=
  refs.countP fun r => r.held && !r.excl && decide (r.tok = k)

variable {refs : List (Ref K)} {i : ℕ} {r : Ref K}

omit [DecidableEq K] in
theorem countP_modify (p : Ref K → Bool) (h : refs[i]? = some r) :
    (refs.modify i f).countP p + (p r).toNat = refs.countP p + (p (f r)).toNat := by
  induction refs generalizing i with
  | nil => cases h
  | cons a refs ih =>
    cases i with
    | zero =>
      cases h
      rw [modify_cons, if_pos rfl, countP_cons, countP_cons]
      cases p r <;> cases p (f r) <;> simp
    | succ i =>
      have hrest := ih (i := i) h
      rw [modify_cons, if_neg (Nat.succ_ne_zero i), countP_cons, countP_cons, Nat.add_sub_cancel]
      omega

omit [DecidableEq K] in
theorem eq_dropLast_append (h : refs[i]? = some r) (hi : i + 1 = refs.length) :
    refs = refs.dropLast ++ [r] := by
  have hlast : refs.getLast? = some r := by
    rw [getLast?_eq_getElem?, ← hi, Nat.add_sub_cancel]
    exact h
  obtain ⟨init, rfl⟩ := getLast?_eq_some_iff.mp hlast
  rw [dropLast_concat]

omit [DecidableEq K] in
theorem countP_dropLast (p : Ref K → Bool) (h : refs[i]? = some r)
    (hi : i + 1 = refs.length) : refs.dropLast.countP p + (p r).toNat = refs.countP p := by
  conv_rhs => rw [eq_dropLast_append h hi]
  rw [countP_append]
  cases hp : p r <;> simp [hp]

/-- The place of the stack that has the exclusive bit of a token. -/
def Exclusive (refs : List (Ref K)) (k : K) (i : ℕ) : Prop :=
  ∃ r : Ref K, refs[i]? = some r ∧ r.tok = k ∧ r.held = true ∧ r.excl = true

theorem ex_pos_iff : 0 < ex k refs ↔ ∃ i, Exclusive refs k i := by
  unfold ex
  rw [countP_pos_iff]
  constructor
  · rintro ⟨r, hr, hp⟩
    simp only [Bool.and_eq_true, decide_eq_true_eq] at hp
    obtain ⟨i, hi⟩ := getElem?_of_mem hr
    exact ⟨i, r, hi, hp.2, hp.1.1, hp.1.2⟩
  · rintro ⟨i, r, hi, htok, hheld, hexcl⟩
    refine ⟨r, mem_of_getElem? hi, ?_⟩
    rw [hheld, hexcl, htok]
    simp

theorem sh_pos_of (hr : r ∈ refs) (htok : r.tok = k) (hheld : r.held = true) :
    0 < ex k refs ∨ 0 < sh k refs := by
  cases hexcl : r.excl with
  | true =>
    left
    unfold ex
    rw [countP_pos_iff]
    exact ⟨r, hr, by simp [hheld, hexcl, htok]⟩
  | false =>
    right
    unfold sh
    rw [countP_pos_iff]
    exact ⟨r, hr, by simp [hheld, hexcl, htok]⟩

end Stacks

section

variable (refs : List (Ref K))

/-- No token has two tokrefs with `TOK_EXCLUSIVE` in a stack. -/
def Single : Prop :=
  ∀ (i j : ℕ) (r r' : Ref K), refs[i]? = some r → refs[j]? = some r' → r.tok = r'.tok →
    r.excl = true → r'.excl = true → i = j

/-- A tokref that was asked for exclusively lies over the one with `TOK_EXCLUSIVE`. -/
def Rooted : Prop :=
  ∀ (j : ℕ) (r : Ref K), refs[j]? = some r → r.asked = true →
    ∃ (i : ℕ) (b : Ref K), i ≤ j ∧ refs[i]? = some b ∧ b.tok = r.tok ∧ b.excl = true

/-! ## What a thread knows -/

variable (n : ℕ) (a : Attempt)

def Attempt.before : List ℕ :=
  match a.goal with
  | .get | .attempt => List.range (n - 1)
  | .all _ done _ _ => done

def Attempt.after : List ℕ :=
  match a.goal with
  | .get | .attempt => List.range n
  | .all _ done _ _ => a.index :: done

def Release.places (r : Release) : List ℕ :=
  match r.after with
  | .pop => List.range n
  | .out _ => r.index :: r.rest

/-- The places of the stack whose tokens the thread has. -/
def heldPlaces : Pc T → List ℕ
  | .run | .confirm | .swapTest _ | .swapStore _ => List.range n
  | .out _ => []
  | .tryCount a | .tryRef a _ | .tryAct a _ _ => a.before n
  | .checkRef a | .setRef a => a.after n
  | .relCount r | .relRef r _ | .relClear r _ | .relExcl r _ | .relRestore r => r.places n
  | .relShared r _ => r.places n

def Attempt.Fits : Prop :=
  match a.goal with
  | .get | .attempt => a.index + 1 = n
  | .all rest done _ _ => (a.index :: (rest ++ done)).Perm (List.range n)

def Release.Fits (r : Release) : Prop :=
  match r.after with
  | .pop => r.index + 1 = n
  | .out _ => (r.index :: r.rest).Nodup ∧ ∀ i ∈ r.index :: r.rest, i < n

/-- The first attempt at a tokref that has just been pushed. -/
def Attempt.fresh : Bool :=
  match a.goal with
  | .get | .attempt => true
  | .all _ _ _ _ => false

def Pc.fresh : Pc T → Bool
  | .tryCount a | .tryRef a _ | .tryAct a _ _ => a.fresh
  | _ => false

/-- The tokref at a place and its `TOK_EXCLUSIVE` bit. -/
def Mode (i : ℕ) (excl : Bool) : Prop :=
  ∃ r : Ref K, refs[i]? = some r ∧ r.excl = excl

/-- The token at a place is held exclusively by the thread. -/
def Has (i : ℕ) : Prop :=
  ∃ (r : Ref K) (j : ℕ), refs[i]? = some r ∧ Exclusive refs r.tok j

/-- The two tokrefs on top are of different tokens. -/
def Differ : Prop :=
  ∃ r r' : Ref K, refs[refs.length - 1]? = some r ∧ refs[refs.length - 2]? = some r' ∧
    2 ≤ refs.length ∧ r.tok ≠ r'.tok

end

def Knows [DecidableEq T] (t : T) (refs : List (Ref K)) : Pc T → Prop
  | .run | .out _ | .confirm => True
  | .tryCount a => a.Fits refs.length ∧ Mode refs a.index a.excl
  | .tryRef a count =>
    a.Fits refs.length ∧ Mode refs a.index a.excl ∧ (Has refs a.index → count.excl = true)
  | .tryAct a count oref =>
    a.Fits refs.length ∧ Mode refs a.index a.excl ∧ (Has refs a.index → count.excl = true) ∧
      (Has refs a.index ↔ ours t refs oref = true)
  | .checkRef a | .setRef a => a.Fits refs.length ∧ Mode refs a.index true
  | .relCount r | .relRef r _ => r.Fits refs.length
  | .relClear r _ | .relExcl r _ | .relRestore r => r.Fits refs.length ∧ Mode refs r.index true
  | .relShared r _ => r.Fits refs.length ∧ Mode refs r.index false
  | .swapTest _ => Differ refs
  | .swapStore second =>
    Differ refs ∧ Mode refs ((Pc.swapStore (T := T) second).place refs.length) true

structure Good [DecidableEq T] (t : T) (refs : List (Ref K)) (pc : Pc T) : Prop where
  held : ∀ (i : ℕ) (r : Ref K), refs[i]? = some r → (r.held = true ↔ i ∈ heldPlaces refs.length pc)
  rooted : Rooted refs
  single : Single (if pc.fresh then refs.dropLast else refs)
  knows : Knows t refs pc

/-- The places of the two tokrefs on top are exchanged. -/
def swapPlace (n i : ℕ) : ℕ :=
  if i + 1 = n then n - 2 else if i + 2 = n then n - 1 else i

/-- The place that the `t_ref` of a token names. -/
def Names (refs : List (Ref K)) (k : K) (i : ℕ) : Pc T → Prop
  | .checkRef a | .setRef a => i ≠ a.index ∧ Exclusive refs k i
  | .relExcl r _ | .relRestore r => i ≠ r.index ∧ Exclusive refs k i
  | .swapTest false | .swapStore false => Exclusive refs k (swapPlace refs.length i)
  | .swapTest true | .swapStore true =>
    (Exclusive refs k (refs.length - 1) ∧ i = refs.length - 2) ∨
      (Exclusive refs k i ∧ i ≠ refs.length - 1)
  | .run | .out _ | .confirm | .tryCount _ | .tryRef _ _ | .tryAct _ _ _ | .relCount _
  | .relRef _ _ | .relClear _ _ | .relShared _ _ => Exclusive refs k i

/-! ## The invariant -/

section Invariant

variable [Fintype T] [DecidableEq T] [DecidableEq K]

structure Inv (token : K → Token T) (refs : T → List (Ref K)) (pc : T → Pc T) : Prop where
  count : ∀ k, (token k).word.count = total (sh k) refs
  excl : ∀ k, (token k).word.excl.toNat = total (ex k) refs
  alone : ∀ k t u, 0 < ex k (refs t) → u ≠ t → sh k (refs u) = 0
  names : ∀ k t i, (token k).ref = some (t, i) ↔ Names (refs t) k i (pc t)
  good : ∀ t, Good t (refs t) (pc t)

variable {token token' : K → Token T} {refs : T → List (Ref K)} {pc : T → Pc T}
  {t : T} {k : K} {refs' : List (Ref K)} {pc' : Pc T}

namespace Inv

section

variable (h : Inv token refs pc)
include h

theorem others_of_ex (ht : 0 < ex k (refs t)) (hu : u ≠ t) :
    ex k (refs u) = 0 ∧ sh k (refs u) = 0 := by
  refine ⟨?_, h.alone k t u ht hu⟩
  have hpair := add_weight_le_total (ex k) refs hu
  have hbit := h.excl k
  have hle : (token k).word.excl.toNat ≤ 1 := Bool.toNat_le _
  omega

theorem excl_of_ex (ht : 0 < ex k (refs t)) : (token k).word.excl = true := by
  have hle := weight_le_total (ex k) refs t
  have hbit := h.excl k
  cases hexcl : (token k).word.excl with
  | true => rfl
  | false =>
    rw [hexcl] at hbit
    simp only [Bool.toNat_false] at hbit
    omega

theorem ex_le_one : ex k (refs t) ≤ 1 := by
  have hle := weight_le_total (ex k) refs t
  have hbit := h.excl k
  have hone : (token k).word.excl.toNat ≤ 1 := Bool.toNat_le _
  omega

theorem nobody_of_excl (hexcl : (token k).word.excl = false) (u : T) : ex k (refs u) = 0 := by
  have hle := weight_le_total (ex k) refs u
  have hbit := h.excl k
  rw [hexcl] at hbit
  simp only [Bool.toNat_false] at hbit
  omega

theorem nobody_of_count (hcount : (token k).word.count = 0) (u : T) : sh k (refs u) = 0 := by
  have hle := weight_le_total (sh k) refs u
  have hsum := h.count k
  omega

theorem replace
    (hothers : ∀ k', k' ≠ k → ex k' refs' = ex k' (refs t) ∧ sh k' refs' = sh k' (refs t))
    (hcount : tok.word.count + sh k (refs t) = (token k).word.count + sh k refs')
    (hexcl : tok.word.excl.toNat + ex k (refs t) = (token k).word.excl.toNat + ex k refs')
    (halone : 0 < ex k refs' → ∀ u, u ≠ t → sh k (refs u) = 0)
    (halone' : 0 < sh k refs' → ∀ u, u ≠ t → ex k (refs u) = 0)
    (hself : ∀ i, tok.ref = some (t, i) ↔ Names refs' k i pc')
    (hother : ∀ u i, u ≠ t → (tok.ref = some (u, i) ↔ (token k).ref = some (u, i)))
    (hnames : ∀ k' i, k' ≠ k → (Names refs' k' i pc' ↔ Names (refs t) k' i (pc t)))
    (hgood : Good t refs' pc') :
    Inv (update token k tok) (update refs t refs') (update pc t pc') := by
  have hex : ∀ k', k' ≠ k → ∀ u, ex k' (update refs t refs' u) = ex k' (refs u) := by
    intro k' hk u
    by_cases hu : u = t
    · rw [hu, update_self]
      exact (hothers k' hk).1
    · rw [update_of_ne hu]
  have hsh : ∀ k', k' ≠ k → ∀ u, sh k' (update refs t refs' u) = sh k' (refs u) := by
    intro k' hk u
    by_cases hu : u = t
    · rw [hu, update_self]
      exact (hothers k' hk).2
    · rw [update_of_ne hu]
  constructor
  · intro k'
    have hchange := total_update (sh k') refs t refs'
    have hsum := h.count k'
    by_cases hk : k' = k
    · subst hk
      rw [update_self]
      omega
    · rw [update_of_ne hk]
      have hsame := (hothers k' hk).2
      omega
  · intro k'
    have hchange := total_update (ex k') refs t refs'
    have hsum := h.excl k'
    by_cases hk : k' = k
    · subst hk
      rw [update_self]
      omega
    · rw [update_of_ne hk]
      have hsame := (hothers k' hk).1
      omega
  · intro k' u v hu hv
    by_cases hk : k' = k
    · subst hk
      by_cases hut : u = t
      · subst hut
        rw [update_self] at hu
        rw [update_of_ne hv]
        exact halone hu v hv
      · rw [update_of_ne hut] at hu
        by_cases hvt : v = t
        · subst hvt
          rw [update_self]
          by_contra hne
          have hzero := halone' (Nat.pos_of_ne_zero hne) u hut
          omega
        · rw [update_of_ne hvt]
          exact h.alone k' u v hu hv
    · rw [hex k' hk] at hu
      rw [hsh k' hk]
      exact h.alone k' u v hu hv
  · intro k' u i
    by_cases hut : u = t
    · subst hut
      rw [update_self, update_self]
      by_cases hk : k' = k
      · subst hk
        rw [update_self]
        exact hself i
      · rw [update_of_ne hk, hnames k' i hk]
        exact h.names k' u i
    · rw [update_of_ne hut, update_of_ne hut]
      by_cases hk : k' = k
      · subst hk
        rw [update_self, hother u i hut]
        exact h.names k' u i
      · rw [update_of_ne hk]
        exact h.names k' u i
  · intro u
    by_cases hu : u = t
    · rw [hu, update_self, update_self]
      exact hgood
    · rw [update_of_ne hu, update_of_ne hu]
      exact h.good u

theorem quiet (htoken : ∀ k, (token' k).word.count = (token k).word.count ∧
      (token' k).word.excl = (token k).word.excl ∧ (token' k).ref = (token k).ref)
    (hsame : ∀ k, ex k refs' = ex k (refs t) ∧ sh k refs' = sh k (refs t))
    (hnames : ∀ k i, Names refs' k i pc' ↔ Names (refs t) k i (pc t)) (hgood : Good t refs' pc') :
    Inv token' (update refs t refs') (update pc t pc') := by
  have hex : ∀ k u, ex k (update refs t refs' u) = ex k (refs u) := by
    intro k u
    by_cases hu : u = t
    · rw [hu, update_self]
      exact (hsame k).1
    · rw [update_of_ne hu]
  have hsh : ∀ k u, sh k (update refs t refs' u) = sh k (refs u) := by
    intro k u
    by_cases hu : u = t
    · rw [hu, update_self]
      exact (hsame k).2
    · rw [update_of_ne hu]
  constructor
  · intro k
    rw [(htoken k).1, h.count k]
    exact Finset.sum_congr rfl fun u _ => (hsh k u).symm
  · intro k
    rw [(htoken k).2.1, h.excl k]
    exact Finset.sum_congr rfl fun u _ => (hex k u).symm
  · intro k u v
    rw [hex, hsh]
    exact h.alone k u v
  · intro k u i
    rw [(htoken k).2.2, h.names k u i]
    by_cases hu : u = t
    · rw [hu, update_self, update_self]
      exact (hnames k i).symm
    · rw [update_of_ne hu, update_of_ne hu]
  · intro u
    by_cases hu : u = t
    · rw [hu, update_self, update_self]
      exact hgood
    · rw [update_of_ne hu, update_of_ne hu]
      exact h.good u

end

end Inv

end Invariant

end DragonFly.LwktToken
