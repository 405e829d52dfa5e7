import DragonFly.LockTokens
import DragonFly.LockmgrActs

/-!
# The accounts of a lock

Holds are tokens of their threads, and a granted upgrade that nobody has taken up is an
exclusive token of nobody.  `LKC_MASK` is the number of tokens and `LKC_EXCL` says of
which kind they are.
-/

namespace DragonFly.Lockmgr

open Function

variable {T : Type}

def exTokens (upgrant : Bool) (held : T → Held) : Option T → ℕ
  | none => upgrant.toNat
  | some t => (held t).ex

def shTokens (held : T → Held) : Option T → ℕ
  | none => 0
  | some t => (held t).sh

structure Sound [Fintype T] (u x g : Bool) (m : ℕ) (o : Option T) (held : T → Held)
    (owner : T → Bool) : Prop where
  accounts : Accounts x m (exTokens g held) (shTokens held)
  upreq : u = true → x = false ∧ m ≠ 0
  holder : ∀ t, o = some t → 0 < (held t).ex
  ownerUnique : ∀ t v, owner t = true → owner v = true → t = v
  ownerBit : ∀ t, owner t = true → u = true ∨ g = true

theorem Act.exclusive_mask (hact : Act t c c') (h : c.excl = true → c.mask ≠ 0) :
    c'.excl = true → c'.mask ≠ 0 := by
  cases hact with
  | recurse _ =>
    intro _
    exact Nat.succ_ne_zero _
  | acquire | upgrade _ | grant _ =>
    intro _
    exact Nat.one_ne_zero
  | share | downgrade _ _ | request _ _ | last _ _ =>
    intro hx
    cases hx
  | drop _ hm =>
    intro _
    simp only
    omega
  | quiet | setHolder _ | clearHolder | take | cancel => exact h

variable {x' : Bool} {m' : ℕ} {h' : Held}

section Tokens

variable [Fintype T] {x g : Bool} {m : ℕ} {held : T → Held}

theorem noGrant_of_shared (h : Accounts false m (exTokens g held) (shTokens held)) :
    g = false ∧ ∀ t, (held t).ex = 0 := by
  have hzero := h.noExclusive rfl
  refine ⟨?_, fun t => hzero (some t)⟩
  have hnone : g.toNat = 0 := hzero none
  exact Bool.toNat_eq_zero.mp hnone

theorem others_of_ex (h : Accounts x m (exTokens g held) (shTokens held)) (ht : 0 < (held t).ex) :
    x = true ∧ g = false ∧ m = (held t).ex ∧ ∀ u, u ≠ t → (held u).ex = 0 ∧ (held u).sh = 0 := by
  have hpos : 0 < exTokens g held (some t) := ht
  refine ⟨h.exclusive_of_pos hpos, ?_, h.count_of_exclusive hpos, ?_⟩
  · have hnone : g.toNat = 0 := (h.others_of_exclusive hpos (u := none) nofun).1
    exact Bool.toNat_eq_zero.mp hnone
  · intro u hu
    exact h.others_of_exclusive hpos (u := some u) fun heq => hu (Option.some.inj heq)

theorem nobody_of_grant (h : Accounts x m (exTokens true held) (shTokens held)) :
    x = true ∧ m = 1 ∧ ∀ t, (held t).ex = 0 ∧ (held t).sh = 0 := by
  have hpos : 0 < exTokens true held none := Nat.one_pos
  refine ⟨h.exclusive_of_pos hpos, h.count_of_exclusive hpos, ?_⟩
  intro t
  exact h.others_of_exclusive hpos (u := some t) nofun

variable [DecidableEq T]

theorem others_of_one (h : Accounts x 1 (exTokens g held) (shTokens held))
    (ht : 0 < (held t).ex + (held t).sh) :
    g = false ∧ (held t).ex + (held t).sh = 1 ∧ ∀ u, u ≠ t → (held u).ex = 0 ∧ (held u).sh = 0 := by
  have hpos : 0 < exTokens g held (some t) + shTokens held (some t) := ht
  have hle : (held t).ex + (held t).sh ≤ 1 := h.le_count (some t)
  refine ⟨?_, by omega, ?_⟩
  · have hnone : g.toNat = 0 := (h.others_of_count_one hpos (u := none) nofun).1
    exact Bool.toNat_eq_zero.mp hnone
  · intro u hu
    exact h.others_of_count_one hpos (u := some u) fun heq => hu (Option.some.inj heq)

theorem change_held (h : Accounts x m (exTokens g held) (shTokens held)) (t : T)
    (hcount : m' + ((held t).ex + (held t).sh) = m + (h'.ex + h'.sh))
    (hunique : 0 < h'.ex → g = false ∧ ∀ u, u ≠ t → (held u).ex = 0)
    (hshared : x' = true → h'.sh = 0 ∧ ∀ u, u ≠ t → (held u).sh = 0)
    (hexclusive : x' = false → g = false ∧ h'.ex = 0 ∧ ∀ u, u ≠ t → (held u).ex = 0) :
    Accounts x' m' (exTokens g (update held t h')) (shTokens (update held t h')) := by
  apply h.change (some t)
  · intro v hv
    cases v with
    | none => exact ⟨rfl, rfl⟩
    | some v =>
      have hvt : v ≠ t := fun heq => hv (congrArg some heq)
      have hsame : update held t h' v = held v := update_of_ne hvt _ _
      exact ⟨congrArg Held.ex hsame, congrArg Held.sh hsame⟩
  · simp only [exTokens, shTokens, update_self]
    exact hcount
  · simp only [exTokens, update_self]
    intro hpos v hv
    obtain ⟨hg, hothers⟩ := hunique hpos
    cases v with
    | none => exact Bool.toNat_eq_zero.mpr hg
    | some v => exact hothers v fun heq => hv (congrArg some heq)
  · simp only [shTokens, update_self]
    intro hx
    obtain ⟨hsh, hothers⟩ := hshared hx
    refine ⟨hsh, ?_⟩
    intro v hv
    cases v with
    | none => rfl
    | some v => exact hothers v fun heq => hv (congrArg some heq)
  · simp only [exTokens, update_self]
    intro hx
    obtain ⟨hg, hex, hothers⟩ := hexclusive hx
    refine ⟨hex, ?_⟩
    intro v hv
    cases v with
    | none => exact Bool.toNat_eq_zero.mpr hg
    | some v => exact hothers v fun heq => hv (congrArg some heq)

theorem grant_held (h : Accounts false 1 (exTokens g held) (shTokens held))
    (ht : 0 < (held t).ex + (held t).sh) :
    Accounts true 1 (exTokens true (update held t { held t with sh := (held t).sh - 1 }))
      (shTokens (update held t { held t with sh := (held t).sh - 1 })) := by
  obtain ⟨hg, hone, hothers⟩ := others_of_one h ht
  have hex := (noGrant_of_shared h).2 t
  have hempty : Accounts true 0 (exTokens g (update held t { held t with sh := (held t).sh - 1 }))
      (shTokens (update held t { held t with sh := (held t).sh - 1 })) := by
    apply change_held h t
    · simp only
      omega
    · simp only
      omega
    · intro _
      exact ⟨by simp only; omega, fun u hu => (hothers u hu).2⟩
    · intro hx
      cases hx
  have hzero := hempty.zero_of_count_zero
  apply hempty.change none
  · intro v hv
    cases v with
    | none => exact absurd rfl hv
    | some v => exact ⟨rfl, rfl⟩
  · rw [hg]
    rfl
  · intro _ v _
    exact (hzero v).1
  · intro _
    exact ⟨rfl, fun v _ => (hzero v).2⟩
  · intro hx
    cases hx

theorem take_held (h : Accounts x m (exTokens true held) (shTokens held)) (t : T) :
    Accounts x m (exTokens false (update held t { held t with ex := (held t).ex + 1 }))
      (shTokens (update held t { held t with ex := (held t).ex + 1 })) := by
  obtain ⟨_, _, hzero⟩ := nobody_of_grant h
  apply h.transfer (t := none) (w := some t) nofun
  · rfl
  · rfl
  · simp only [exTokens, update_self, (hzero t).1]
  · intro v hnone hsome
    cases v with
    | none => exact absurd rfl hnone
    | some v =>
      have hvt : v ≠ t := fun heq => hsome (congrArg some heq)
      simp only [exTokens, update_of_ne hvt]
  · intro v
    cases v with
    | none => rfl
    | some v =>
      by_cases hvt : v = t
      · subst hvt
        simp only [shTokens, update_self]
      · simp only [shTokens, update_of_ne hvt]

end Tokens

namespace Sound

variable [Fintype T] {u x g : Bool} {m : ℕ} {o : Option T} {held : T → Held}
  {owner : T → Bool} {t : T}

theorem no_owner (h : Sound false x false m o held owner) (v : T) : owner v = false := by
  cases hv : owner v with
  | false => rfl
  | true =>
    rcases h.ownerBit v hv with hbit | hbit
    · cases hbit
    · cases hbit

theorem others_not_exclusive (h : Sound u x g m o held owner)
    (ht : 0 < (held t).ex + (held t).sh ∨ owner t = true) (hv : v ≠ t) : (held v).ex = 0 := by
  by_contra hne
  have hpos : 0 < (held v).ex := Nat.pos_of_ne_zero hne
  obtain ⟨hx, hg, _, hothers⟩ := others_of_ex h.accounts hpos
  rcases ht with hheld | howner
  · have hzero := hothers t (Ne.symm hv)
    omega
  · rcases h.ownerBit t howner with hu | hgrant
    · have hfalse := (h.upreq hu).1
      rw [hx] at hfalse
      cases hfalse
    · rw [hg] at hgrant
      cases hgrant

variable [DecidableEq T]

theorem holder_update (h : Sound u x g m o held owner) (ht : o = some t → 0 < h'.ex) :
    ∀ v, o = some v → 0 < (update held t h' v).ex := by
  intro v hv
  by_cases hvt : v = t
  · rw [hvt, update_self]
    exact ht (hvt ▸ hv)
  · rw [update_of_ne hvt]
    exact h.holder v hv

variable {u' g' : Bool}

theorem of_accounts (h : Sound u x g m o held owner)
    (haccounts : Accounts x' m' (exTokens g' (update held t h'))
      (shTokens (update held t h')))
    (hupreq : u' = true → x' = false ∧ m' ≠ 0) (hholder : o = some t → 0 < h'.ex)
    (hbit : u = true ∨ g = true → u' = true ∨ g' = true) :
    Sound u' x' g' m' o (update held t h') (update owner t (owner t)) := by
  rw [update_eq_self]
  exact ⟨haccounts, hupreq, h.holder_update hholder, h.ownerUnique,
    fun v hv => hbit (h.ownerBit v hv)⟩

theorem disowned (h : Sound u x g m o held owner) (ht : owner t = true)
    (haccounts : Accounts x m (exTokens g' (update held t h'))
      (shTokens (update held t h')))
    (hupreq : u' = true → x = false ∧ m ≠ 0) (hholder : o = some t → 0 < h'.ex) :
    Sound u' x g' m o (update held t h') (update owner t false) := by
  have hnone : ∀ v, update owner t false v = false := by
    intro v
    by_cases hvt : v = t
    · rw [hvt, update_self]
    · rw [update_of_ne hvt]
      cases hv : owner v with
      | false => rfl
      | true => exact absurd (h.ownerUnique v t hv ht) hvt
  refine ⟨haccounts, hupreq, h.holder_update hholder, ?_, ?_⟩
  · intro v w hv
    rw [hnone v] at hv
    cases hv
  · intro v hv
    rw [hnone v] at hv
    cases hv

theorem share (h : Sound u false g m o held owner) :
    Sound u false g (m + 1) o (update held t { held t with sh := (held t).sh + 1 })
      (update owner t (owner t)) := by
  obtain ⟨hg, hzero⟩ := noGrant_of_shared h.accounts
  apply h.of_accounts
  · apply change_held h.accounts t
    · simp only
      omega
    · simp only [hzero t]
      omega
    · intro hx
      cases hx
    · intro _
      exact ⟨hg, hzero t, fun v _ => hzero v⟩
  · intro _
    exact ⟨rfl, Nat.succ_ne_zero _⟩
  · exact h.holder t
  · exact id

theorem recurse (h : Sound u x g m o held owner) (hex : 0 < (held t).ex) :
    Sound u x g (m + 1) o (update held t { held t with ex := (held t).ex + 1 })
      (update owner t (owner t)) := by
  obtain ⟨hx, hg, _, hothers⟩ := others_of_ex h.accounts hex
  have hsh : (held t).sh = 0 := h.accounts.noShared hx (some t)
  apply h.of_accounts
  · apply change_held h.accounts t
    · simp only
      omega
    · intro _
      exact ⟨hg, fun v hv => (hothers v hv).1⟩
    · intro _
      exact ⟨hsh, fun v hv => (hothers v hv).2⟩
    · intro hfalse
      rw [hx] at hfalse
      cases hfalse
  · intro hu
    exact ⟨(h.upreq hu).1, Nat.succ_ne_zero _⟩
  · intro _
    exact Nat.succ_pos _
  · exact id

theorem acquire (h : Sound false false false 0 o held owner) :
    Sound false true false 1 o (update held t { held t with ex := (held t).ex + 1 })
      (update owner t (owner t)) := by
  have hzero : ∀ v, (held v).ex = 0 ∧ (held v).sh = 0 :=
    fun v => h.accounts.zero_of_count_zero (some v)
  apply h.of_accounts
  · apply change_held h.accounts t
    · simp only
      omega
    · intro _
      exact ⟨rfl, fun v _ => (hzero v).1⟩
    · intro _
      exact ⟨(hzero t).2, fun v _ => (hzero v).2⟩
    · intro hfalse
      cases hfalse
  · intro hu
    cases hu
  · intro _
    exact Nat.succ_pos _
  · exact id

theorem downgrade (h : Sound u true g 1 o held owner) (hex : 0 < (held t).ex) (ho : o ≠ some t) :
    Sound u false g 1 o (update held t ⟨(held t).ex - 1, (held t).sh + 1⟩)
      (update owner t (owner t)) := by
  obtain ⟨_, hg, hone, hothers⟩ := others_of_ex h.accounts hex
  apply h.of_accounts
  · apply change_held h.accounts t
    · simp only
      omega
    · simp only
      omega
    · intro hx
      cases hx
    · intro _
      refine ⟨hg, ?_, fun v hv => (hothers v hv).1⟩
      simp only
      omega
  · intro _
    exact ⟨rfl, Nat.one_ne_zero⟩
  · intro hholder
    exact absurd hholder ho
  · exact id

theorem upgrade (h : Sound false false g 1 o held owner) (hheld : 0 < (held t).ex + (held t).sh) :
    Sound false true g 1 o (update held t ⟨(held t).ex + 1, (held t).sh - 1⟩)
      (update owner t (owner t)) := by
  obtain ⟨hg, hone, hothers⟩ := others_of_one h.accounts hheld
  have hex := (noGrant_of_shared h.accounts).2 t
  apply h.of_accounts
  · apply change_held h.accounts t
    · simp only
      omega
    · intro _
      exact ⟨hg, fun v hv => (hothers v hv).1⟩
    · intro _
      refine ⟨?_, fun v hv => (hothers v hv).2⟩
      simp only
      omega
    · intro hx
      cases hx
  · intro hu
    cases hu
  · intro _
    exact Nat.succ_pos _
  · exact id

theorem request
    (h : Sound false false g m o held owner) (hheld : 0 < (held t).ex + (held t).sh) (hm : 2 ≤ m) :
    Sound true false g (m - 1) o (update held t { held t with sh := (held t).sh - 1 })
      (update owner t true) := by
  obtain ⟨hg, hzero⟩ := noGrant_of_shared h.accounts
  subst hg
  have hex := hzero t
  have hnone := h.no_owner
  constructor
  · apply change_held h.accounts t
    · simp only
      omega
    · simp only
      omega
    · intro hx
      cases hx
    · intro _
      exact ⟨rfl, hex, fun v _ => hzero v⟩
  · intro _
    exact ⟨rfl, by omega⟩
  · exact h.holder_update (h.holder t)
  · have hself : ∀ v, update owner t true v = true → v = t := by
      intro v hv
      by_contra hvt
      rw [update_of_ne hvt, hnone v] at hv
      cases hv
    intro v w hv hw
    rw [hself v hv, hself w hw]
  · intro _ _
    exact .inl rfl

theorem grant (h : Sound true false g 1 o held owner) (hheld : 0 < (held t).ex + (held t).sh) :
    Sound false true true 1 o (update held t { held t with sh := (held t).sh - 1 })
      (update owner t (owner t)) := by
  apply h.of_accounts
  · exact grant_held h.accounts hheld
  · intro hu
    cases hu
  · exact h.holder t
  · intro _
    exact .inr rfl

theorem take (h : Sound u x true m o held owner) (ht : owner t = true) :
    Sound u x false m o (update held t { held t with ex := (held t).ex + 1 })
      (update owner t false) := by
  apply h.disowned ht
  · exact take_held h.accounts t
  · exact h.upreq
  · intro _
    exact Nat.succ_pos _

theorem last (h : Sound false x g 1 o held owner) (hheld : 0 < (held t).ex + (held t).sh)
    (ho : x = true → o ≠ some t) :
    Sound false false g 0 o (update held t ((held t).drop x)) (update owner t (owner t)) := by
  obtain ⟨hg, hone, hothers⟩ := others_of_one h.accounts hheld
  have hdrop : ((held t).drop x).ex = 0 ∧ ((held t).drop x).sh = 0 := by
    cases x with
    | true =>
      have hsh : (held t).sh = 0 := h.accounts.noShared rfl (some t)
      simp only [Held.drop, if_true]
      omega
    | false =>
      have hex : (held t).ex = 0 := h.accounts.noExclusive rfl (some t)
      simp only [Held.drop, Bool.false_eq_true, if_false]
      omega
  apply h.of_accounts
  · apply change_held h.accounts t
    · omega
    · omega
    · intro hx
      cases hx
    · intro _
      exact ⟨hg, hdrop.1, fun v hv => (hothers v hv).1⟩
  · intro hu
    cases hu
  · intro hholder
    have hpos := h.holder t hholder
    exact absurd hholder (ho (others_of_ex h.accounts hpos).1)
  · exact id

section

variable (h : Sound u x g m o held owner)
include h

theorem drop (hheld : 0 < (held t).ex + (held t).sh) (hm : 2 ≤ m) :
    Sound u x g (m - 1) o (update held t ((held t).drop x)) (update owner t (owner t)) := by
  apply h.of_accounts
  · cases x with
    | true =>
      have hsh : (held t).sh = 0 := h.accounts.noShared rfl (some t)
      obtain ⟨_, hg, hcount, hothers⟩ := others_of_ex h.accounts (t := t) (by omega)
      apply change_held h.accounts t
      · simp only [Held.drop, if_true]
        omega
      · intro _
        exact ⟨hg, fun v hv => (hothers v hv).1⟩
      · intro _
        exact ⟨hsh, fun v hv => (hothers v hv).2⟩
      · intro hx
        cases hx
    | false =>
      obtain ⟨hg, hzero⟩ := noGrant_of_shared h.accounts
      have hex := hzero t
      apply change_held h.accounts t
      · simp only [Held.drop, Bool.false_eq_true, if_false]
        omega
      · intro _
        exact ⟨hg, fun v _ => hzero v⟩
      · intro hx
        cases hx
      · intro _
        exact ⟨hg, hex, fun v _ => hzero v⟩
  · intro hu
    exact ⟨(h.upreq hu).1, by omega⟩
  · intro hholder
    obtain ⟨hx, _, hcount, _⟩ := others_of_ex h.accounts (h.holder t hholder)
    rw [hx]
    simp only [Held.drop, if_true]
    omega
  · exact id

theorem act (hact : Act t ⟨u, x, g, m, o, held t, owner t⟩ ⟨u', x', g', m', o', h', w'⟩) :
    Sound u' x' g' m' o' (update held t h') (update owner t w') := by
  generalize hheld : held t = ht at hact
  generalize howner : owner t = w at hact
  cases hact with
  | quiet =>
    rw [← hheld, ← howner, update_eq_self, update_eq_self]
    exact h
  | share => exact howner ▸ hheld ▸ h.share
  | recurse hex => exact howner ▸ hheld ▸ h.recurse (hheld ▸ hex)
  | acquire => exact howner ▸ hheld ▸ h.acquire
  | setHolder hex =>
    rw [← hheld, ← howner, update_eq_self, update_eq_self]
    refine ⟨h.accounts, h.upreq, ?_, h.ownerUnique, h.ownerBit⟩
    intro v hv
    cases hv
    exact hheld ▸ hex
  | clearHolder =>
    rw [← hheld, ← howner, update_eq_self, update_eq_self]
    exact ⟨h.accounts, h.upreq, nofun, h.ownerUnique, h.ownerBit⟩
  | downgrade hex ho => exact howner ▸ hheld ▸ h.downgrade (hheld ▸ hex) ho
  | upgrade hpos => exact howner ▸ hheld ▸ h.upgrade (hheld ▸ hpos)
  | request hpos hm => exact hheld ▸ h.request (hheld ▸ hpos) hm
  | grant hpos => exact howner ▸ hheld ▸ h.grant (hheld ▸ hpos)
  | take => exact hheld ▸ h.take howner
  | cancel =>
    rw [← hheld]
    apply h.disowned howner
    · rw [update_eq_self]
      exact h.accounts
    · intro hu
      cases hu
    · exact h.holder t
  | last hpos ho => exact howner ▸ hheld ▸ h.last (hheld ▸ hpos) ho
  | drop hpos hm => exact howner ▸ hheld ▸ h.drop (hheld ▸ hpos) hm

theorem abandon (ht : owner t = true) :
    Sound u x g m o (update held t (held t)) (update owner t false) := by
  apply h.disowned ht
  · rw [update_eq_self]
    exact h.accounts
  · exact h.upreq
  · exact h.holder t

theorem attended (hattended : u = true ∨ g = true → ∃ v, owner v = true)
    (hact : Act t ⟨u, x, g, m, o, held t, owner t⟩ ⟨u', x', g', m', o', h', w'⟩) :
    u' = true ∨ g' = true → ∃ v, update owner t w' v = true := by
  generalize hheld : held t = ht at hact
  generalize howner : owner t = w at hact
  cases hact with
  | request _ _ =>
    intro _
    exact ⟨t, update_self _ _ _⟩
  | grant _ =>
    intro _
    rw [← howner, update_eq_self]
    exact hattended (.inl rfl)
  | take =>
    rintro (hu | hg)
    · have hx := (h.upreq hu).1
      rw [(nobody_of_grant h.accounts).1] at hx
      cases hx
    · cases hg
  | cancel =>
    rintro (hu | hg)
    · cases hu
    · cases hg
  | quiet | share | recurse | acquire | setHolder | clearHolder | downgrade | upgrade | last
  | drop =>
    rw [← howner, update_eq_self]
    exact hattended

end

end Sound

end DragonFly.Lockmgr
