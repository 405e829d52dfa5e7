import DragonFly.LockTokens
import DragonFly.MutexPhases

/-!
# The invariant of a mutex

The tokens of a thread are its holds, the lock it carries through
`mtx_chain_link`, and the lock that a waiter has been handed but has not noticed.
They account for the lock word.  Recursion is granted on the strength of
`mtx_owner`, and a thread that looks for an exclusive lock must not find itself
there without a token.
-/

namespace DragonFly.Mutex

open Function

variable {T : Type}

def tokens (p : Phase T) (h : Held) (st : LinkState) : ℕ :=
  h.ex + (if p.chains then 1 else 0) +
    (if p.listens ∧ st = .acquired then 1 else 0)

attribute [simp] tokens Phase.chains Phase.listens

/-- What holds of a thread's own link and holds in each phase. -/
def Own (u : T) (c : Core T) (h : Held) : Phase T → Prop
  | .free | .entering | .joining | .chained | .handing _ => c.state u ≠ .linked
  | .aborting _ | .delinking _ | .marking _ | .closing => c.state u ≠ .linked
  | .holding => c.state u ≠ .linked ∧ 0 < h.ex + h.sh
  | .recursing | .storing => c.state u ≠ .linked ∧ 0 < h.ex
  | .enlisting => c.state u ≠ .linked ∧ c.linkOwner u = some u
  | .joined | .unlinking => c.state u = .linked ∧ c.linkOwner u = some u
  | .waiting | .leaving => c.linkOwner u = some u
  | .left | .woken => c.state u ≠ .linked ∧ c.linkOwner u = some u
  | .receiving => c.state u = .acquired ∧ c.linkOwner u = some u
  | .refused => c.state u ≠ .linked ∧ c.state u ≠ .acquired
  | .chaining | .releasing | .picked _ => c.state u ≠ .linked ∧ h = ⟨0, 0⟩

/-- What a thread that works on the link of another knows about it. -/
def Cross (c : Core T) (ph : T → Phase T) : Phase T → Prop
  | .picked w => c.state w = .linked
  | .handing w =>
    (ph w).listens = true ∧ c.state w = .acquired ∧ c.owner ≠ some w
  | .delinking w => c.state w = .linked
  | .marking w => c.state w = .linked ∨ c.state w = .idle
  | _ => True

/-- The tokens account for the lock word. -/
abbrev Balanced [Fintype T] (c : Core T) (held : T → Held) (ph : T → Phase T) : Prop :=
  Accounts c.ex c.count (fun u => tokens (ph u) (held u) (c.state u)) (fun u => (held u).sh)

structure Inv [Fintype T] (c : Core T) (held : T → Held) (ph : T → Phase T) :
    Prop where
  accounts : Accounts c.ex c.count
    (fun u => tokens (ph u) (held u) (c.state u)) (fun u => (held u).sh)
  single : ∀ u v, (ph u).ownsLink = true → (ph v).ownsLink = true → u = v
  exlink : ∀ u, (ph u).ownsLink = true → c.exlink = true
  own : ∀ u, Own u c (held u) (ph u)
  apart : ∀ u, (ph u).seeks = true → tokens (ph u) (held u) (c.state u) = 0 → c.owner ≠ some u
  cross : ∀ u, Cross c ph (ph u)

theorem Own.congr (hown : Own u c h p) (hstate : c'.state u = c.state u)
    (hlinkOwner : c'.linkOwner u = c.linkOwner u) : Own u c' h p := by
  cases p <;> simp only [Own, hstate, hlinkOwner] at hown ⊢ <;> exact hown

theorem cross_of_not_ownsLink (hp : p.ownsLink = false) : Cross c ph p := by
  cases p with
  | picked w | handing w | delinking w | marking w => cases hp
  | _ => trivial

section Phases

variable {t : T} {c c' : Core T} {h : Held} {p p' : Phase T}

theorem Held.release_spec (hpos : 0 < h.ex + h.sh) :
    h.release.ex + h.release.sh + 1 = h.ex + h.sh ∧ h.release.ex ≤ h.ex ∧ h.release.sh ≤ h.sh ∧
      (0 < h.ex → h.release.sh = h.sh) := by
  unfold Held.release
  by_cases hex : 0 < h.ex
  · rw [if_pos hex]
    refine ⟨?_, Nat.sub_le _ _, le_rfl, fun _ => rfl⟩
    simp only
    omega
  · rw [if_neg hex]
    refine ⟨?_, le_rfl, Nat.sub_le _ _, fun hpos => absurd hpos hex⟩
    simp only
    omega

theorem Own.aborted (hown : Own u c h p) (hidle : c.state u = .idle)
    (hstate : c'.state u = .aborted) (hlinkOwner : c'.linkOwner = c.linkOwner) : Own u c' h p := by
  cases p <;> simp [Own, hidle, hstate, hlinkOwner] at hown ⊢ <;> exact hown

section

variable (hmove : Moves t c h p p')
include hmove

theorem Moves.tokens_eq : tokens p' h (c.state t) = tokens p h (c.state t) := by
  cases hmove with
  | stillLinked hstate | refuse hstate => simp [hstate]
  | _ => rfl

theorem Moves.ownsLink_eq : p'.ownsLink = p.ownsLink := by
  cases hmove <;> rfl

theorem Moves.listens
    (hlistens : p.listens = true) (hacquired : c.state t = .acquired) : p'.listens = true := by
  cases hmove with
  | stay => exact hlistens
  | stillLinked hstate =>
    rw [hacquired] at hstate
    cases hstate
  | refuse hstate => exact absurd hacquired hstate
  | notLinked | gone | granted => rfl
  | _ => cases hlistens

theorem Moves.own
    (hown : Own t c h p) (hapart : p.seeks = true → tokens p h (c.state t) = 0 → c.owner ≠ some t) :
    Own t c h p' := by
  cases hmove with
  | stay | enter | giveUp | pick | empty | abortIdle | abortLinked | abortNone | delinked =>
    exact hown
  | hold hheld => exact ⟨hown, hheld⟩
  | confirm howner =>
    refine ⟨hown, Nat.pos_of_ne_zero fun hzero => ?_⟩
    exact hapart rfl (by simp [hzero]) howner
  | retry | finish | again | fail => exact hown.1
  | notLinked hstate | stillLinked hstate | gone hstate => exact ⟨hstate, hown⟩
  | granted hstate => exact ⟨hstate, hown.2⟩
  | refuse hstate => exact ⟨hown.1, hstate⟩

theorem Moves.apart
    (hown : Own t c h p) (hapart : p.seeks = true → tokens p h (c.state t) = 0 → c.owner ≠ some t) :
    p'.seeks = true → tokens p' h (c.state t) = 0 → c.owner ≠ some t := by
  intro hseeks htokens
  have hold := htokens
  rw [hmove.tokens_eq] at hold
  cases hmove with
  | stay => exact hapart hseeks hold
  | enter howner =>
    apply howner
    simpa using htokens
  | retry =>
    have hpos := hown.2
    simp at htokens
    omega
  | notLinked | stillLinked | gone | refuse | again => exact hapart rfl hold
  | _ => cases hseeks

end

theorem Drops.tokens_eq (hdrop : Drops p p') (hown : Own t c h p) :
    tokens p' h (c.state t) = tokens p h (c.state t) := by
  cases hdrop with
  | join => simp [hown.1]
  | _ => rfl

theorem Moves.cross [DecidableEq T] (hmove : Moves t c h (ph t) p') (hcross : Cross c ph (ph t)) :
    Cross c (update ph t p') p' := by
  generalize hp : ph t = p at hmove hcross
  cases hmove with
  | stay =>
    rw [← hp, update_eq_self, hp]
    exact hcross
  | pick hstate | abortLinked hstate => exact hstate
  | abortIdle hstate => exact Or.inr hstate
  | delinked => exact Or.inl hcross
  | _ => trivial

end Phases

variable [Fintype T]

section Reading

variable {t : T} {c c' : Core T} {held : T → Held} {ph : T → Phase T}

theorem Inv.apart_frame
    (h : Inv c held ph) (howner : c'.owner = c.owner ∨ c'.owner = none ∨ c'.owner = some t) :
    ∀ u, u ≠ t → (ph u).seeks = true →
      tokens (ph u) (held u) (c.state u) = 0 → c'.owner ≠ some u := by
  intro u hu hseeks htokens
  rcases howner with hsame | hnone | hmine
  · rw [hsame]
    exact h.apart u hseeks htokens
  · rw [hnone]
    exact nofun
  · rw [hmine]
    intro heq
    exact hu (Option.some.inj heq).symm

theorem Inv.holds (h : Inv c held ph) (hp : ph t = .holding) :
    c.state t ≠ .linked ∧ tokens (ph t) (held t) (c.state t) = (held t).ex ∧
      0 < (held t).ex + (held t).sh := by
  have hown := h.own t
  rw [hp] at hown
  refine ⟨hown.1, ?_, hown.2⟩
  simp [hp]

theorem Inv.waits_of_linked (h : Inv c held ph) (hp : (ph t).ownsLink = true) (hne : w ≠ t)
    (hstate : c.state w = .linked) : ph w = .waiting := by
  have hown := h.own w
  have hfree : (ph w).ownsLink = false := by
    rw [← Bool.not_eq_true]
    intro hpw
    exact hne (h.single w t hpw hp)
  cases hpw : ph w with
  | waiting => rfl
  | joined =>
    rw [hpw] at hfree
    cases hfree
  | unlinking =>
    rw [hpw] at hfree
    cases hfree
  | leaving =>
    rw [hpw] at hfree
    cases hfree
  | receiving =>
    rw [hpw] at hown
    exact absurd (hown.1.symm.trans hstate) nofun
  | _ =>
    rw [hpw] at hown
    simp [Own, hstate] at hown

end Reading

variable [DecidableEq T]

section Advance

variable {t : T} {c c' : Core T} {held : T → Held} {ph : T → Phase T} {h' : Held} {p' : Phase T}

/-- A thread's own part of the invariant, after an act of it. -/
structure Fits (t : T) (c' : Core T) (ph : T → Phase T) (h' : Held)
    (p' : Phase T) : Prop where
  own : Own t c' h' p'
  apart : p'.seeks = true → tokens p' h' (c'.state t) = 0 → c'.owner ≠ some t
  cross : Cross c' (update ph t p') p'

section

variable (h : Inv c held ph)
include h

/-- An act that leaves the links of the others alone keeps the invariant if it
keeps the accounts, the use of `MTX_EXLINK`, and what the others know. -/
theorem Inv.advance (hstate : ∀ u, u ≠ t → c'.state u = c.state u)
    (hlinkOwner : ∀ u, u ≠ t → c'.linkOwner u = c.linkOwner u)
    (happart : ∀ u, u ≠ t → (ph u).seeks = true →
      tokens (ph u) (held u) (c.state u) = 0 → c'.owner ≠ some u)
    (haccounts : Balanced c' (update held t h') (update ph t p'))
    (hsingle : p'.ownsLink = true → (ph t).ownsLink = true ∨ c.exlink = false)
    (hexlink : ∀ u, (update ph t p' u).ownsLink = true → c'.exlink = true)
    (hfits : Fits t c' ph h' p') (hcross : ∀ u, u ≠ t → Cross c' (update ph t p') (ph u)) :
    Inv c' (update held t h') (update ph t p') := by
  have hother : ∀ u, u ≠ t → p'.ownsLink = true → (ph u).ownsLink = false := by
    intro u hu hp'
    rw [← Bool.not_eq_true]
    intro hpu
    rcases hsingle hp' with hpt | hfree
    · exact hu (h.single u t hpu hpt)
    · have hset := h.exlink u hpu
      rw [hfree] at hset
      cases hset
  constructor
  · exact haccounts
  · intro u v hpu hpv
    by_cases hu : u = t
    · by_cases hv : v = t
      · rw [hu, hv]
      · rw [hu, update_self] at hpu
        rw [update_of_ne hv, hother v hv hpu] at hpv
        cases hpv
    · rw [update_of_ne hu] at hpu
      by_cases hv : v = t
      · rw [hv, update_self] at hpv
        rw [hother u hu hpv] at hpu
        cases hpu
      · rw [update_of_ne hv] at hpv
        exact h.single u v hpu hpv
  · exact hexlink
  · intro u
    by_cases hu : u = t
    · rw [hu, update_self, update_self]
      exact hfits.own
    · rw [update_of_ne hu, update_of_ne hu]
      exact (h.own u).congr (hstate u hu) (hlinkOwner u hu)
  · intro u hseeks htokens
    by_cases hu : u = t
    · rw [hu, update_self] at hseeks
      rw [hu, update_self, update_self] at htokens
      rw [hu]
      exact hfits.apart hseeks htokens
    · rw [update_of_ne hu] at hseeks
      rw [update_of_ne hu, update_of_ne hu, hstate u hu] at htokens
      exact happart u hu hseeks htokens
  · intro u
    by_cases hu : u = t
    · rw [hu, update_self]
      exact hfits.cross
    · rw [update_of_ne hu]
      exact hcross u hu

/-- The others keep what they know if no link changes and a waiter goes on
listening. -/
theorem Inv.cross_frame (hstate : ∀ u, c'.state u = c.state u)
    (howner : c'.owner = c.owner ∨ c'.owner = none ∨ c'.owner = some t ∧ (ph t).listens = false)
    (hlistens : (ph t).listens = true → c.state t = .acquired →
      c.owner ≠ some t → p'.listens = true) : ∀ u, u ≠ t → Cross c' (update ph t p') (ph u) := by
  intro u hu
  have hold := h.cross u
  cases hp : ph u with
  | picked w | delinking w =>
    rw [hp] at hold
    exact (hstate w).trans hold
  | handing w =>
    rw [hp] at hold
    obtain ⟨hlisten, hacquired, hne⟩ := hold
    refine ⟨?_, (hstate w).trans hacquired, ?_⟩
    · by_cases hw : w = t
      · rw [hw] at hlisten hacquired hne
        rw [hw, update_self]
        exact hlistens hlisten hacquired hne
      · rw [update_of_ne hw]
        exact hlisten
    · rcases howner with hsame | hnone | ⟨hmine, hdeaf⟩
      · rw [hsame]
        exact hne
      · rw [hnone]
        exact nofun
      · rw [hmine]
        intro heq
        rw [← Option.some.inj heq, hdeaf] at hlisten
        cases hlisten
  | marking w =>
    rw [hp] at hold
    rw [Cross, hstate w]
    exact hold
  | _ => trivial

theorem Inv.cross_of_ownsLink (hp : (ph t).ownsLink = true) :
    ∀ u, u ≠ t → Cross c' (update ph t p') (ph u) := by
  intro u hu
  apply cross_of_not_ownsLink
  rw [← Bool.not_eq_true]
  intro hpu
  exact hu (h.single u t hpu hp)

theorem Inv.accounts_change (hstate : ∀ u, u ≠ t → c'.state u = c.state u)
    (hcount : c'.count + (tokens (ph t) (held t) (c.state t) + (held t).sh) =
      c.count + (tokens p' h' (c'.state t) + h'.sh))
    (hunique : 0 < tokens p' h' (c'.state t) → ∀ u, u ≠ t → tokens (ph u) (held u) (c.state u) = 0)
    (hshared : c'.ex = true → h'.sh = 0 ∧ ∀ u, u ≠ t → (held u).sh = 0)
    (hexclusive : c'.ex = false → tokens p' h' (c'.state t) = 0 ∧
      ∀ u, u ≠ t → tokens (ph u) (held u) (c.state u) = 0) :
    Balanced c' (update held t h') (update ph t p') := by
  apply h.accounts.change t
  · intro u hu
    simp only [update_of_ne hu, hstate u hu, and_self]
  · simpa only [update_self] using hcount
  · simpa only [update_self] using hunique
  · simpa only [update_self] using hshared
  · simpa only [update_self] using hexclusive

theorem Inv.accounts_same (hstate : ∀ u, u ≠ t → c'.state u = c.state u)
    (hex : c'.ex = c.ex) (hcount : c'.count = c.count)
    (htokens : tokens p' h' (c'.state t) = tokens (ph t) (held t) (c.state t))
    (hsh : h'.sh = (held t).sh) : Balanced c' (update held t h') (update ph t p') := by
  have hsame : (fun u => tokens (update ph t p' u)
      (update held t h' u) (c'.state u)) = fun u => tokens (ph u) (held u) (c.state u) := by
    funext u
    by_cases hu : u = t
    · rw [hu, update_self, update_self]
      exact htokens
    · rw [update_of_ne hu, update_of_ne hu, hstate u hu]
  have hsame' : (fun u => (update held t h' u).sh) =
      fun u => (held u).sh := by
    funext u
    by_cases hu : u = t
    · rw [hu, update_self]
      exact hsh
    · rw [update_of_ne hu]
  rw [Balanced, hsame, hsame', hex, hcount]
  exact h.accounts

end

end Advance

/-! ## Moves -/

section Moves

variable {t : T} {c : Core T} {held : T → Held} {ph : T → Phase T} {h : Held} {p p' : Phase T}

theorem Inv.move (h : Inv c held ph) (hmove : Moves t c (held t) (ph t) p') :
    Inv c (update held t (held t)) (update ph t p') := by
  apply h.advance
  · exact fun _ _ => rfl
  · exact fun _ _ => rfl
  · exact h.apart_frame (Or.inl rfl)
  · exact h.accounts_same (fun _ _ => rfl) rfl rfl hmove.tokens_eq rfl
  · intro hp'
    rw [hmove.ownsLink_eq] at hp'
    exact Or.inl hp'
  · intro u hu
    by_cases hut : u = t
    · rw [hut, update_self, hmove.ownsLink_eq] at hu
      exact h.exlink t hu
    · rw [update_of_ne hut] at hu
      exact h.exlink u hu
  · exact ⟨hmove.own (h.own t) (h.apart t), hmove.apart (h.own t) (h.apart t),
      hmove.cross (h.cross t)⟩
  · exact h.cross_frame (fun _ => rfl) (Or.inl rfl)
      fun hlistens hacquired _ => hmove.listens hlistens hacquired

end Moves

/-! ## Acts on the lock word and on `mtx_owner` -/

section Plain

variable {t : T} {c c' : Core T} {held : T → Held} {ph : T → Phase T} {h' : Held} {p' : Phase T}

variable (h : Inv c held ph)
include h

theorem Inv.plain (hstate : c'.state = c.state)
    (hlinkOwner : c'.linkOwner = c.linkOwner) (hexlink : c'.exlink = c.exlink)
    (howner : c'.owner = c.owner ∨ c'.owner = none ∨ c'.owner = some t ∧ (ph t).listens = false)
    (haccounts : Balanced c' (update held t h') (update ph t p'))
    (hlink : p'.ownsLink = false) (hseeks : p'.seeks = false) (hown : Own t c' h' p')
    (hlistens : (ph t).listens = true → c.state t = .acquired →
      c.owner ≠ some t → p'.listens = true) : Inv c' (update held t h') (update ph t p') := by
  apply h.advance
  · exact fun u _ => congrFun hstate u
  · exact fun u _ => congrFun hlinkOwner u
  · apply h.apart_frame
    rcases howner with hsame | hnone | hmine
    · exact Or.inl hsame
    · exact Or.inr (Or.inl hnone)
    · exact Or.inr (Or.inr hmine.1)
  · exact haccounts
  · intro hp'
    rw [hlink] at hp'
    cases hp'
  · intro u hu
    by_cases hut : u = t
    · rw [hut, update_self, hlink] at hu
      cases hu
    · rw [update_of_ne hut] at hu
      rw [hexlink]
      exact h.exlink u hu
  · refine ⟨hown, ?_, cross_of_not_ownsLink hlink⟩
    intro hp'
    rw [hseeks] at hp'
    cases hp'
  · exact h.cross_frame (fun u => congrFun hstate u) howner hlistens

/-- The lock word and the holds of a thread change, which does not chain or wait for a lock. -/
theorem Inv.recount (hp : ph t = p) (hquiet : p.chains = false ∧ p.listens = false)
    (hp' : p' = .free ∨ p' = .storing) (hown : Own t c h' p')
    (hcount : count' + ((held t).ex + (held t).sh) = c.count + (h'.ex + h'.sh))
    (hunique : 0 < h'.ex → ∀ u, u ≠ t → tokens (ph u) (held u) (c.state u) = 0)
    (hshared : ex' = true → h'.sh = 0 ∧ ∀ u, u ≠ t → (held u).sh = 0)
    (hexclusive : ex' = false → h'.ex = 0 ∧ ∀ u, u ≠ t → tokens (ph u) (held u) (c.state u) = 0) :
    Inv { c with ex := ex', count := count' } (update held t h') (update ph t p') := by
  have hold : tokens (ph t) (held t) (c.state t) = (held t).ex := by
    rw [tokens, hp, hquiet.1, hquiet.2]
    simp
  have hnew : tokens p' h' (c.state t) = h'.ex := by
    rcases hp' with rfl | rfl <;> rfl
  refine h.plain rfl rfl rfl (Or.inl rfl) ?_ ?_ ?_ (hown.congr rfl rfl) ?_
  · refine h.accounts_change (fun _ _ => rfl) ?_ ?_ ?_ ?_
    · rw [hold, hnew]
      exact hcount
    · rwa [hnew]
    · exact hshared
    · rwa [hnew]
  · rcases hp' with rfl | rfl <;> rfl
  · rcases hp' with rfl | rfl <;> rfl
  · rw [hp, hquiet.2]
    exact nofun

theorem Inv.alone (hp : ph t = .holding) (hcount : c.count = 1) :
    (held t).ex + (held t).sh = 1 ∧
      ∀ u, u ≠ t → tokens (ph u) (held u) (c.state u) = 0 ∧ (held u).sh = 0 := by
  obtain ⟨-, htokens, hheld⟩ := h.holds hp
  constructor
  · have hle := h.accounts.le_count t
    simp only [htokens] at hle
    omega
  · exact fun u hu => (hcount ▸ h.accounts).others_of_count_one (by omega) hu

theorem Inv.claim (hp : ph t = .entering) (hcount : c.count = 0) :
    Inv { c with ex := true, count := 1 } (update held t ⟨(held t).ex + 1, (held t).sh⟩)
      (update ph t .storing) := by
  have hown := h.own t
  have hzero := fun u => (hcount ▸ h.accounts).zero_of_count_zero u
  rw [hp] at hown
  refine h.recount hp ⟨rfl, rfl⟩ (.inr rfl) ⟨hown, Nat.succ_pos _⟩ ?_ ?_ ?_ nofun
  · simp only [hcount]
    omega
  · exact fun _ u _ => (hzero u).1
  · exact fun _ => ⟨(hzero t).2, fun u _ => (hzero u).2⟩

theorem Inv.store (hp : ph t = .storing) : Inv { c with owner := some t } (update held t (held t))
      (update ph t .free) := by
  have hown := h.own t
  rw [hp] at hown
  refine h.plain rfl rfl rfl ?_ ?_ rfl rfl ?_ ?_
  · exact Or.inr (Or.inr ⟨rfl, by rw [hp]; rfl⟩)
  · refine h.accounts_same (fun _ _ => rfl) rfl rfl ?_ rfl
    rw [hp]
    rfl
  · exact hown.1
  · rw [hp]
    exact nofun

theorem Inv.recurse (hp : ph t = .recursing) (hex : c.ex = true) :
    Inv { c with count := c.count + 1 } (update held t ⟨(held t).ex + 1, (held t).sh⟩)
      (update ph t .free) := by
  have hown := h.own t
  rw [hp] at hown
  have hpos : 0 < tokens (ph t) (held t) (c.state t) := by
    simpa [hp] using hown.2
  refine h.recount hp ⟨rfl, rfl⟩ (.inl rfl) hown.1 ?_ ?_ ?_ ?_
  · simp only
    omega
  · exact fun _ u hu => (h.accounts.others_of_exclusive hpos hu).1
  · exact fun _ => ⟨h.accounts.noShared hex t, fun u _ => h.accounts.noShared hex u⟩
  · intro hfalse
    exact absurd (hex.symm.trans hfalse) nofun

theorem Inv.receive (hp : ph t = .receiving) (howner : c.owner = c.linkOwner t) :
    Inv c (update held t ⟨(held t).ex + 1, (held t).sh⟩) (update ph t .free) := by
  have hown := h.own t
  rw [hp] at hown
  refine h.plain rfl rfl rfl (Or.inl rfl) ?_ rfl rfl ?_ ?_
  · refine h.accounts_same (fun _ _ => rfl) rfl rfl ?_ rfl
    simp [hp, hown.1]
  · simp only [Own, hown.1]
    exact nofun
  · intro _ _ hne
    exact absurd (howner.trans hown.2) hne

theorem Inv.share (hp : ph t = .free) (hex : c.ex = false) : Inv { c with count := c.count + 1 }
      (update held t ⟨(held t).ex, (held t).sh + 1⟩)
      (update ph t .free) := by
  have hown := h.own t
  have hzero := h.accounts.noExclusive hex
  have hmine := hzero t
  rw [hp] at hown hmine
  refine h.recount hp ⟨rfl, rfl⟩ (.inl rfl) hown ?_ ?_ ?_ ?_
  · simp only
    omega
  · exact fun _ u _ => hzero u
  · intro htrue
    exact absurd (hex.symm.trans htrue) nofun
  · exact fun _ => ⟨hmine, fun u _ => hzero u⟩

theorem Inv.forget (hp : ph t = .free ∨ ph t = .holding) :
    Inv { c with owner := none } (update held t (held t)) (update ph t (ph t)) := by
  refine h.plain rfl rfl rfl (Or.inr (Or.inl rfl)) ?_ ?_ ?_ ?_ ?_
  · exact h.accounts_same (fun _ _ => rfl) rfl rfl rfl rfl
  · rcases hp with hp | hp
    · rw [hp]
      rfl
    · rw [hp]
      rfl
  · rcases hp with hp | hp
    · rw [hp]
      rfl
    · rw [hp]
      rfl
  · exact (h.own t).congr rfl rfl
  · exact fun hlistens _ _ => hlistens

theorem Inv.downgrade (hp : ph t = .holding) (hex : c.ex = true) : Inv { c with ex := false }
      (update held t ⟨0, (held t).ex + (held t).sh⟩)
      (update ph t .free) := by
  obtain ⟨hstate, htokens, hheld⟩ := h.holds hp
  have hnone := h.accounts.noShared hex t
  have hpos : 0 < tokens (ph t) (held t) (c.state t) := by omega
  refine h.recount hp ⟨rfl, rfl⟩ (.inl rfl) hstate ?_ nofun nofun ?_
  · simp only
    omega
  · exact fun _ => ⟨rfl, fun u hu => (h.accounts.others_of_exclusive hpos hu).1⟩

theorem Inv.upgrade (hp : ph t = .holding) (hex : c.ex = false) (hcount : c.count = 1) :
    Inv { c with ex := true } (update held t ⟨(held t).ex + 1, (held t).sh - 1⟩)
      (update ph t .storing) := by
  obtain ⟨hstate, htokens, hheld⟩ := h.holds hp
  have hnone := h.accounts.noExclusive hex t
  obtain ⟨hone, hothers⟩ := h.alone hp hcount
  replace hone : (held t).sh = 1 := by omega
  refine h.recount hp ⟨rfl, rfl⟩ (.inr rfl) ⟨hstate, Nat.succ_pos _⟩ ?_ ?_ ?_ nofun
  · simp only
    omega
  · exact fun _ u hu => (hothers u hu).1
  · exact fun _ => ⟨by simp [hone], fun u hu => (hothers u hu).2⟩

theorem Inv.release (hp : ph t = .holding) (hcount : c.count = 1) :
    Inv { c with ex := false, count := 0 }
      (update held t (held t).release) (update ph t .free) := by
  obtain ⟨hstate, htokens, hheld⟩ := h.holds hp
  obtain ⟨hsum, hle, -, -⟩ := Held.release_spec hheld
  obtain ⟨hone, hothers⟩ := h.alone hp hcount
  refine h.recount hp ⟨rfl, rfl⟩ (.inl rfl) hstate (by omega) ?_ nofun ?_
  · exact fun _ u hu => (hothers u hu).1
  · exact fun _ => ⟨by omega, fun u hu => (hothers u hu).1⟩

theorem Inv.decrement (hp : ph t = .holding) (hcount : 2 ≤ c.count) :
    Inv { c with count := c.count - 1 } (update held t (held t).release) (update ph t .free) := by
  obtain ⟨hstate, htokens, hheld⟩ := h.holds hp
  obtain ⟨hsum, hex, hsh, hkind⟩ := Held.release_spec hheld
  refine h.recount hp ⟨rfl, rfl⟩ (.inl rfl) hstate (by omega) ?_ ?_ ?_
  · exact fun hpos u hu => (h.accounts.others_of_exclusive (by omega) hu).1
  · intro htrue
    have hnone := h.accounts.noShared htrue
    exact ⟨by rw [hnone t] at hsh; omega, fun u _ => hnone u⟩
  · intro hfalse
    have hnone := h.accounts.noExclusive hfalse
    have hmine := hnone t
    exact ⟨by omega, fun u _ => hnone u⟩

end Plain

/-! ## Acts with `MTX_EXLINK` -/

section Linked

variable {t : T} {c c' : Core T} {held : T → Held} {ph : T → Phase T} {h' : Held} {p' : Phase T}

variable (h : Inv c held ph)
include h

theorem Inv.take (htake : Takes (ph t) p') (hexlink : c.exlink = false) :
    Inv { c with exlink := true } (update held t (held t)) (update ph t p') := by
  have hown := h.own t
  have hapart := h.apart t
  have hlistens : (ph t).listens = p'.listens := by
    generalize ph t = p at htake
    cases htake <;> rfl
  have hchains : (ph t).chains = p'.chains := by
    generalize ph t = p at htake
    cases htake <;> rfl
  have htokens : tokens p' (held t) (c.state t) = tokens (ph t) (held t) (c.state t) := by
    rw [tokens, tokens, hlistens, hchains]
  apply h.advance
  · exact fun _ _ => rfl
  · exact fun _ _ => rfl
  · exact h.apart_frame (Or.inl rfl)
  · exact h.accounts_same (fun _ _ => rfl) rfl rfl htokens rfl
  · exact fun _ => Or.inr hexlink
  · exact fun _ _ => rfl
  · constructor
    · generalize ph t = p at htake hown
      cases htake <;> exact hown
    · intro hseeks hzero
      rw [htokens] at hzero
      apply hapart _ hzero
      generalize ph t = p at htake
      cases htake with
      | join | delete => rfl
      | abort => cases hseeks
    · generalize ph t = p at htake
      cases htake <;> trivial
  · exact h.cross_frame (fun _ => rfl) (Or.inl rfl) fun hold _ _ => hlistens ▸ hold

theorem Inv.unowned (hp : (ph t).ownsLink = true) (hp' : p'.ownsLink = false)
    (u : T) : (update ph t p' u).ownsLink = false := by
  by_cases hu : u = t
  · rw [hu, update_self]
    exact hp'
  · rw [update_of_ne hu, ← Bool.not_eq_true]
    intro hpu
    exact hu (h.single u t hpu hp)

theorem Inv.drop (hdrop : Drops (ph t) p') : Inv { c with exlink := false } (update held t (held t))
      (update ph t p') := by
  have hown := h.own t
  have hapart := h.apart t
  have htokens := hdrop.tokens_eq hown
  have hp : (ph t).ownsLink = true := by
    generalize ph t = p at hdrop
    cases hdrop <;> rfl
  have hp' : p'.ownsLink = false := by
    generalize ph t = p at hdrop
    cases hdrop <;> rfl
  apply h.advance
  · exact fun _ _ => rfl
  · exact fun _ _ => rfl
  · exact h.apart_frame (Or.inl rfl)
  · exact h.accounts_same (fun _ _ => rfl) rfl rfl htokens rfl
  · exact fun _ => Or.inl hp
  · intro u hu
    rw [h.unowned hp hp' u] at hu
    cases hu
  · constructor
    · generalize ph t = p at hdrop hown
      cases hdrop with
      | abortJoin | delete | chain | abort => exact hown
      | join => exact hown.2
    · intro hseeks hzero
      rw [htokens] at hzero
      apply hapart _ hzero
      generalize ph t = p at hdrop
      cases hdrop with
      | abortJoin | join | delete => rfl
      | chain | abort => cases hseeks
    · exact cross_of_not_ownsLink hp'
  · exact h.cross_of_ownsLink hp

theorem Inv.withLink (hp : (ph t).ownsLink = true) (hstate : ∀ u, u ≠ t → c'.state u = c.state u)
    (hlinkOwner : ∀ u, u ≠ t → c'.linkOwner u = c.linkOwner u)
    (hex : c'.ex = c.ex) (hcount : c'.count = c.count) (hexlink : c'.exlink = c.exlink)
    (happart : ∀ u, u ≠ t → (ph u).seeks = true →
      tokens (ph u) (held u) (c.state u) = 0 → c'.owner ≠ some u)
    (htokens : tokens p' (held t) (c'.state t) = tokens (ph t) (held t) (c.state t))
    (hfits : Fits t c' ph (held t) p') : Inv c' (update held t (held t)) (update ph t p') := by
  apply h.advance hstate hlinkOwner happart
  · exact h.accounts_same hstate hex hcount htokens rfl
  · exact fun _ => Or.inl hp
  · intro _ _
    rw [hexlink]
    exact h.exlink t hp
  · exact hfits
  · exact h.cross_of_ownsLink hp

theorem Inv.name (hp : ph t = .joining) : Inv { c with linkOwner := update c.linkOwner t (some t) }
      (update held t (held t)) (update ph t .enlisting) := by
  have hown := h.own t
  have hapart := h.apart t
  rw [hp] at hown hapart
  refine h.withLink (by rw [hp]; rfl) (fun _ _ => rfl) ?_ rfl rfl rfl
    (h.apart_frame (Or.inl rfl)) (by rw [hp]; rfl) ?_
  · exact fun u hu => update_of_ne hu _ _
  · exact ⟨⟨hown, update_self _ _ _⟩, fun _ hzero => hapart rfl hzero, trivial⟩

theorem Inv.link (hp : ph t = .enlisting) : Inv { c with state := update c.state t .linked }
      (update held t (held t)) (update ph t .joined) := by
  have hown := h.own t
  have hapart := h.apart t
  rw [hp] at hown hapart
  refine h.withLink (by rw [hp]; rfl) ?_ (fun _ _ => rfl) rfl rfl rfl
    (h.apart_frame (Or.inl rfl)) ?_ ?_
  · exact fun u hu => update_of_ne hu _ _
  · rw [hp]
    simp
  · refine ⟨⟨update_self _ _ _, hown.2⟩, fun _ hzero => ?_, trivial⟩
    apply hapart rfl
    simpa using hzero

theorem Inv.unlink (hp : ph t = .unlinking) : Inv { c with state := update c.state t .idle }
      (update held t (held t)) (update ph t .left) := by
  have hown := h.own t
  have hapart := h.apart t
  rw [hp] at hown hapart
  refine h.withLink (by rw [hp]; rfl) ?_ (fun _ _ => rfl) rfl rfl rfl
    (h.apart_frame (Or.inl rfl)) ?_ ?_
  · exact fun u hu => update_of_ne hu _ _
  · rw [hp]
    simp
  · refine ⟨⟨?_, hown.2⟩, fun _ hzero => ?_, trivial⟩
    · simp only [update_self]
      exact nofun
    · apply hapart rfl
      simpa using hzero

theorem Inv.init (hp : ph t = .free ∨ ph t = .entering) :
    Inv { c with state := update c.state t .idle }
      (update held t (held t)) (update ph t (ph t)) := by
  have hown := h.own t
  have hunlinked : c.state t ≠ .linked := by
    rcases hp with hp | hp
    · rw [hp] at hown
      exact hown
    · rw [hp] at hown
      exact hown
  have hdeaf : (ph t).listens = false := by
    rcases hp with hp | hp
    · rw [hp]
      rfl
    · rw [hp]
      rfl
  have hlink : (ph t).ownsLink = false := by
    rcases hp with hp | hp
    · rw [hp]
      rfl
    · rw [hp]
      rfl
  have htokens : ∀ st st', tokens (ph t) (held t) st = tokens (ph t) (held t) st' := by
    intro st st'
    simp only [tokens, hdeaf, Bool.false_eq_true, false_and]
  have hframe : ∀ u, u ≠ t → update c.state t .idle u = c.state u := fun u hu => update_of_ne hu _ _
  refine h.advance hframe (fun _ _ => rfl) (h.apart_frame (Or.inl rfl)) ?_ ?_ ?_ ?_ ?_
  · exact h.accounts_same hframe rfl rfl (htokens _ _) rfl
  · exact Or.inl
  · intro u hu
    rw [update_eq_self] at hu
    exact h.exlink u hu
  · constructor
    · rcases hp with hp | hp
      · rw [hp]
        simp [Own]
      · rw [hp]
        simp [Own]
    · intro hseeks hzero
      rw [htokens _ (c.state t)] at hzero
      exact h.apart t hseeks hzero
    · exact cross_of_not_ownsLink hlink
  · intro u hu
    have hold := h.cross u
    -- a thread that works on this link would find it linked, or listening
    have hother : ∀ w, c.state w = .linked → w ≠ t := by
      intro w hstate heq
      rw [heq] at hstate
      exact hunlinked hstate
    rw [update_eq_self]
    cases hpu : ph u with
    | picked w | delinking w =>
      rw [hpu] at hold
      exact (hframe w (hother w hold)).trans hold
    | handing w =>
      rw [hpu] at hold
      obtain ⟨hlistens, hacquired, hne⟩ := hold
      have hw : w ≠ t := by
        intro heq
        rw [heq, hdeaf] at hlistens
        cases hlistens
      exact ⟨hlistens, (hframe w hw).trans hacquired, hne⟩
    | marking w =>
      by_cases hw : w = t
      · right
        rw [hw]
        exact update_self _ _ _
      · rw [hpu] at hold
        simp only [Cross, hframe w hw]
        exact hold
    | _ => trivial

theorem Inv.seize (hp : ph t = .holding) (hcount : c.count = 1) (hexlink : c.exlink = false) :
    Inv { c with ex := true, exlink := true }
      (update held t (held t).release) (update ph t .chaining) := by
  obtain ⟨hstate, htokens, hheld⟩ := h.holds hp
  obtain ⟨hsum, -, -, -⟩ := Held.release_spec hheld
  obtain ⟨hone, hothers⟩ := h.alone hp hcount
  have hrelease : (held t).release = ⟨0, 0⟩ := by
    generalize (held t).release = r at hsum
    cases r with
    | mk ex sh =>
      simp only at hsum
      simp only [Held.mk.injEq]
      omega
  refine h.advance (fun _ _ => rfl) (fun _ _ => rfl) (h.apart_frame (Or.inl rfl))
    ?_ ?_ ?_ ?_ ?_
  · refine h.accounts_change (fun _ _ => rfl) ?_ ?_ ?_ ?_
    · rw [htokens, hrelease]
      simp
      omega
    · exact fun _ u hu => (hothers u hu).1
    · intro _
      rw [hrelease]
      exact ⟨rfl, fun u hu => (hothers u hu).2⟩
    · exact nofun
  · exact fun _ => Or.inr hexlink
  · exact fun _ _ => rfl
  · exact ⟨⟨hstate, hrelease⟩, nofun, trivial⟩
  · apply h.cross_frame (fun _ => rfl) (Or.inl rfl)
    rw [hp]
    exact nofun

theorem Inv.vacate (hp : ph t = .releasing) :
    Inv { c with ex := false, exlink := false, count := c.count / 2 * 2 }
      (update held t (held t)) (update ph t .free) := by
  have hown := h.own t
  rw [hp] at hown
  obtain ⟨hstate, hheld⟩ := hown
  have hlink : (ph t).ownsLink = true := by
    rw [hp]
    rfl
  have htokens : tokens (ph t) (held t) (c.state t) = 1 := by
    rw [hp, hheld]
    simp
  have hcount := h.accounts.count_of_exclusive (t := t) (by rw [htokens]; omega)
  have hothers := fun u hu =>
    h.accounts.others_of_exclusive (t := t) (u := u) (by rw [htokens]; omega) hu
  rw [htokens] at hcount
  have hnew : tokens (T := T) .free (held t) (c.state t) = 0 := by
    rw [hheld]
    rfl
  refine h.advance (fun _ _ => rfl) (fun _ _ => rfl) (h.apart_frame (Or.inl rfl))
    ?_ ?_ ?_ ?_ ?_
  · refine h.accounts_change (fun _ _ => rfl) ?_ ?_ ?_ ?_
    · rw [htokens, hnew]
      simp only [hcount, hheld]
    · exact fun _ u hu => (hothers u hu).1
    · exact nofun
    · exact fun _ => ⟨hnew, fun u hu => (hothers u hu).1⟩
  · exact fun _ => Or.inl hlink
  · intro u hu
    rw [h.unowned hlink rfl u] at hu
    cases hu
  · exact ⟨hstate, nofun, trivial⟩
  · exact h.cross_of_ownsLink hlink

theorem Inv.nameOwner (hp : ph t = .handing w) :
    Inv { c with owner := c.linkOwner w } (update held t (held t)) (update ph t .chained) := by
  have hown := h.own t
  have hcross := h.cross t
  rw [hp] at hown hcross
  obtain ⟨hlistens, hacquired, -⟩ := hcross
  have hnamed : c.linkOwner w = some w := by
    have hw := h.own w
    generalize ph w = pw at hlistens hw
    cases pw with
    | waiting | leaving => exact hw
    | left | woken | receiving => exact hw.2
    | _ => cases hlistens
  refine h.withLink (by rw [hp]; rfl) (fun _ _ => rfl) (fun _ _ => rfl) rfl rfl rfl
    ?_ (by rw [hp]; rfl) ⟨hown, nofun, trivial⟩
  intro u _ _ hzero
  simp only [hnamed]
  intro heq
  rw [← Option.some.inj heq] at hzero
  simp only [tokens, hlistens, hacquired, and_self, if_true] at hzero
  omega

theorem Inv.overwrite (hp : (ph t).ownsLink = true) (haccounts : Accounts c.ex c.count
      (fun u => tokens (update ph t p' u) (held u)
        (update c.state w st u))
      (fun u => (held u).sh))
    (hown : ∀ u, Own u { c with state := update c.state w st } (held u) (update ph t p' u))
    (hapart : ∀ u, (update ph t p' u).seeks = true → tokens (update ph t p' u) (held u)
        (update c.state w st u) = 0 → c.owner ≠ some u)
    (hcross : Cross { c with state := update c.state w st } (update ph t p') p') :
    Inv { c with state := update c.state w st } (update held t (held t)) (update ph t p') := by
  have howns : ∀ u, (update ph t p' u).ownsLink = true → u = t := by
    intro u hu
    by_contra hne
    rw [update_of_ne hne] at hu
    exact hne (h.single u t hu hp)
  rw [update_eq_self]
  constructor
  · exact haccounts
  · intro u v hu hv
    rw [howns u hu, howns v hv]
  · exact fun _ _ => h.exlink t hp
  · exact hown
  · exact hapart
  · intro u
    by_cases hu : u = t
    · rw [hu, update_self]
      exact hcross
    · rw [update_of_ne hu]
      exact h.cross_of_ownsLink hp u hu

theorem Inv.handOver (hp : ph t = .picked w) : Inv { c with state := update c.state w .acquired }
      (update held t (held t)) (update ph t (.handing w)) := by
  have hown := h.own t
  have hlinked := h.cross t
  rw [hp] at hown hlinked
  obtain ⟨hunlinked, hheld⟩ := hown
  have hlink : (ph t).ownsLink = true := by
    rw [hp]
    rfl
  have hne : w ≠ t := by
    intro heq
    rw [heq] at hlinked
    exact hunlinked hlinked
  have hwaits := h.waits_of_linked hlink hne hlinked
  have htokens : tokens (ph t) (held t) (c.state t) = 1 := by
    rw [hp, hheld]
    simp
  have hzero := (h.accounts.others_of_exclusive (t := t) (u := w) (by rw [htokens]; omega) hne).1
  have hex : (held w).ex = 0 := by
    simp only [tokens] at hzero
    omega
  apply h.overwrite hlink
  · apply h.accounts.transfer hne htokens
    · rw [update_self, hheld]
      rfl
    · rw [update_of_ne hne, update_self, hwaits, tokens, hex]
      rfl
    · intro u hut huw
      rw [update_of_ne hut, update_of_ne huw]
    · exact fun _ => rfl
  · intro u
    by_cases hut : u = t
    · rw [hut, update_self]
      simp only [Own, update_of_ne (Ne.symm hne)]
      exact hunlinked
    · rw [update_of_ne hut]
      by_cases huw : u = w
      · have hw := h.own w
        rw [hwaits] at hw
        rw [huw, hwaits]
        exact hw
      · exact (h.own u).congr (update_of_ne huw _ _) rfl
  · intro u hseeks hnone
    by_cases hut : u = t
    · rw [hut, update_self] at hseeks
      cases hseeks
    · rw [update_of_ne hut] at hseeks hnone
      by_cases huw : u = w
      · rw [huw, hwaits, update_self] at hnone
        simp at hnone
      · rw [update_of_ne huw] at hnone
        exact h.apart u hseeks hnone
  · refine ⟨?_, update_self _ _ _, ?_⟩
    · rw [update_of_ne hne, hwaits]
      rfl
    · apply h.apart w _ hzero
      rw [hwaits]
      rfl

theorem Inv.mark (hp : ph t = .marking w) : Inv { c with state := update c.state w .aborted }
      (update held t (held t)) (update ph t .closing) := by
  have hown := h.own t
  have hknown := h.cross t
  rw [hp] at hown hknown
  have hlink : (ph t).ownsLink = true := by
    rw [hp]
    rfl
  have hnot : c.state w ≠ .acquired := by
    rcases hknown with hstate | hstate
    · rw [hstate]
      exact nofun
    · rw [hstate]
      exact nofun
  have htokens : ∀ u, tokens (update ph t .closing u) (held u) (update c.state w .aborted u) =
        tokens (ph u) (held u) (c.state u) := by
    intro u
    have hphase : tokens (update ph t .closing u) (held u) (c.state u) =
        tokens (ph u) (held u) (c.state u) := by
      by_cases hut : u = t
      · rw [hut, update_self, hp]
        rfl
      · rw [update_of_ne hut]
    rw [← hphase]
    by_cases huw : u = w
    · rw [huw, update_self]
      simp [tokens, hnot]
    · rw [update_of_ne huw]
  apply h.overwrite hlink
  · simp only [htokens]
    exact h.accounts
  · intro u
    by_cases hut : u = t
    · rw [hut, update_self]
      by_cases htw : t = w
      · simp [Own, htw]
      · simp only [Own, update_of_ne htw]
        exact hown
    · rw [update_of_ne hut]
      by_cases huw : u = w
      · rw [huw]
        rcases hknown with hstate | hstate
        · have hwaits := h.waits_of_linked hlink (huw ▸ hut) hstate
          have hw := h.own w
          rw [hwaits] at hw
          rw [hwaits]
          exact hw
        · exact (h.own w).aborted hstate (update_self _ _ _) rfl
      · exact (h.own u).congr (update_of_ne huw _ _) rfl
  · intro u hseeks hzero
    rw [htokens u] at hzero
    by_cases hut : u = t
    · rw [hut, update_self] at hseeks
      cases hseeks
    · rw [update_of_ne hut] at hseeks
      exact h.apart u hseeks hzero
  · trivial

end Linked

end DragonFly.Mutex
