import DragonFly.MutexQueueActs

/-!
# Waiters are not stranded

The ring holds the linked links, and while it is not empty `MTX_EXWANTED` is set and the
lock is held.
-/

namespace DragonFly.Mutex.Queue

open Function False

variable {T : Type}

def linked (st : T → LinkState) (w : T) : Prop :=
  st w = .linked

theorem not_links_of_not_owns {r : Role T} (h : r.owns = false) : ¬ r.Links st := by
  cases r with
  | away | asleep => exact id
  | _ => cases h

section Invariant

variable [DecidableEq T]

/-- The ring as the thread that has `MTX_EXLINK` will leave it. -/
def Role.Tidy (t : T) (q : Wires T) (L : T → Prop) : Role T → Prop
  | away | asleep => True
  | joining | binding | joined | leaving | closing => Fits q L
  | inserting p => Inserts q L t p
  | choosing w => Fits q L ∧ q.head = some w
  | emptying => Fits q L ∧ q.head = none
  | unlinking _ w p => Unlinks q L w p
  | unlinked _ w alone => Fits q (fun u => L u ∧ u ≠ w) ∧ (alone = true → q.head = none)
  | passing alone => Fits q L ∧ (alone = true → q.head = none)

structure Inv (v : View T) (rs : T → Role T) : Prop where
  unique : ∀ t u, (rs t).owns = true → (rs u).owns = true → t = u
  exlink : ∀ t, (rs t).owns = true → v.lock.exlink = true
  quiet : Quiet v.lock
  wanted : (v.wires.head ≠ none ∨ ∃ u, (rs u).Links (v.state u)) →
    v.lock.exwanted = true ∧ v.lock.count ≠ 0
  own : ∀ t, v.state t = .linked → (rs t).MayLink
  tidy : ∀ t, (rs t).owns = true → (rs t).Tidy t v.wires (linked v.state)
  free : (∀ t, (rs t).owns = false) → Fits v.wires (linked v.state)

namespace Inv

variable {v v' : View T} {rs : T → Role T} {t : T} {r' : Role T}

section

variable (h : Inv v rs)
include h

theorem others_of_owns (ht : (rs t).owns = true) (hu : u ≠ t) : (rs u).owns = false := by
  cases howns : (rs u).owns with
  | false => rfl
  | true => exact absurd (h.unique u t howns ht) hu

theorem nobody_of_exlink (hexlink : v.lock.exlink = false) (u : T) : (rs u).owns = false := by
  cases howns : (rs u).owns with
  | false => rfl
  | true =>
    have hset := h.exlink u howns
    rw [hexlink] at hset
    cases hset

theorem outside (ht : (rs t).owns = false) (hr : r'.owns = false)
    (hwires : v'.wires = v.wires) (hkeeps : Keeps v.lock v'.lock)
    (hstate : ∀ u, u ≠ t → v'.state u = v.state u)
    (hlinked : v'.state t = .linked ↔ v.state t = .linked)
    (hown : v'.state t = .linked → r'.MayLink) : Inv v' (update rs t r') := by
  have howns : ∀ u, (update rs t r' u).owns = true → u ≠ t ∧ update rs t r' u = rs u := by
    intro u hu
    have hut : u ≠ t := by
      rintro rfl
      rw [update_self, hr] at hu
      cases hu
    exact ⟨hut, update_of_ne hut _ _⟩
  have hsame : ∀ u, linked v.state u ↔ linked v'.state u := by
    intro u
    by_cases hut : u = t
    · subst hut
      exact hlinked.symm
    · rw [linked, linked, hstate u hut]
  have hset : linked v'.state = linked v.state := by
    funext u
    exact propext (hsame u).symm
  constructor
  · intro u w hu hw
    rw [(howns u hu).2] at hu
    rw [(howns w hw).2] at hw
    exact h.unique u w hu hw
  · intro u hu
    rw [(howns u hu).2] at hu
    rw [hkeeps.exlink]
    exact h.exlink u hu
  · exact hkeeps.quiet h.quiet
  · intro hbusy
    have hbefore : v.lock.exwanted = true ∧ v.lock.count ≠ 0 := by
      apply h.wanted
      rcases hbusy with hhead | ⟨u, hu⟩
      · exact .inl (hwires ▸ hhead)
      · by_cases hut : u = t
        · subst hut
          rw [update_self] at hu
          exact absurd hu (not_links_of_not_owns hr)
        · rw [update_of_ne hut, hstate u hut] at hu
          exact .inr ⟨u, hu⟩
    exact ⟨hkeeps.exwanted hbefore.1, hkeeps.count hbefore.1 hbefore.2⟩
  · intro u hu
    by_cases hut : u = t
    · subst hut
      rw [update_self]
      exact hown hu
    · rw [update_of_ne hut]
      exact h.own u (hstate u hut ▸ hu)
  · intro u hu
    have heq := (howns u hu).2
    rw [heq] at hu ⊢
    rw [hwires, hset]
    exact h.tidy u hu
  · intro hnobody
    rw [hwires, hset]
    apply h.free
    intro u
    by_cases hut : u = t
    · rw [hut]
      exact ht
    · have hu := hnobody u
      rw [update_of_ne hut] at hu
      exact hu

theorem of_owner (hothers : ∀ u, u ≠ t → (rs u).owns = false) (hr : r'.owns = true)
    (hexlink : v'.lock.exlink = true) (hquiet : Quiet v'.lock)
    (hwanted : v'.wires.head ≠ none ∨ r'.Links (v'.state t) →
      v'.lock.exwanted = true ∧ v'.lock.count ≠ 0)
    (hown : ∀ u, u ≠ t → v'.state u = .linked → v.state u = .linked)
    (hmine : v'.state t = .linked → r'.MayLink) (htidy : r'.Tidy t v'.wires (linked v'.state)) :
    Inv v' (update rs t r') := by
  have howns : ∀ u, (update rs t r' u).owns = true → u = t := by
    intro u hu
    by_contra hut
    rw [update_of_ne hut, hothers u hut] at hu
    cases hu
  constructor
  · intro u w hu hw
    rw [howns u hu, howns w hw]
  · intro _ _
    exact hexlink
  · exact hquiet
  · rintro (hhead | ⟨u, hu⟩)
    · exact hwanted (.inl hhead)
    · by_cases hut : u = t
      · subst hut
        rw [update_self] at hu
        exact hwanted (.inr hu)
      · rw [update_of_ne hut] at hu
        exact absurd hu (not_links_of_not_owns (hothers u hut))
  · intro u hu
    by_cases hut : u = t
    · subst hut
      rw [update_self]
      exact hmine hu
    · rw [update_of_ne hut]
      exact h.own u (hown u hut hu)
  · intro u hu
    have hut := howns u hu
    subst hut
    rw [update_self]
    exact htidy
  · intro hnobody
    have ht := hnobody t
    rw [update_self, hr] at ht
    cases ht

section

variable {r : Role T} (hrole : rs t = r)
include hrole

theorem may_link (hstate : v.state t = .linked) : r.MayLink :=
  hrole ▸ h.own t hstate

theorem not_linked (hmay : ¬ r.MayLink) : v.state t ≠ .linked :=
  fun hstate => hmay (h.may_link hrole hstate)

variable (howns : r.owns = true)
include howns

theorem tidy_of : r.Tidy t v.wires (linked v.state) := by
  subst hrole
  exact h.tidy t howns

theorem exit (hr : r'.owns = false) (hquiet : Quiet l')
    (hwanted : v.wires.head ≠ none → l'.exwanted = true ∧ l'.count ≠ 0)
    (hmine : r.MayLink → r'.MayLink) (hfits : Fits v.wires (linked v.state)) :
    Inv ⟨l', v.wires, v.state⟩ (update rs t r') := by
  have hnobody : ∀ u, (update rs t r' u).owns = false := by
    intro u
    by_cases hut : u = t
    · rw [hut, update_self]
      exact hr
    · rw [update_of_ne hut]
      exact h.others_of_owns (hrole ▸ howns) hut
  constructor
  · intro u w hu
    rw [hnobody u] at hu
    cases hu
  · intro u hu
    rw [hnobody u] at hu
    cases hu
  · exact hquiet
  · rintro (hhead | ⟨u, hu⟩)
    · exact hwanted hhead
    · exact absurd hu (not_links_of_not_owns (hnobody u))
  · intro u hu
    by_cases hut : u = t
    · subst hut
      rw [update_self]
      exact hmine (h.may_link hrole hu)
    · rw [update_of_ne hut]
      exact h.own u hu
  · intro u hu
    rw [hnobody u] at hu
    cases hu
  · intro _
    exact hfits

theorem inside (hr : r'.owns = true)
    (hwanted : q'.head ≠ none ∨ r'.Links (st' t) → v.lock.exwanted = true ∧ v.lock.count ≠ 0)
    (hown : ∀ u, u ≠ t → st' u = .linked → v.state u = .linked)
    (hmine : st' t = .linked → r'.MayLink) (htidy : r'.Tidy t q' (linked st')) :
    Inv ⟨v.lock, q', st'⟩ (update rs t r') := by
  have ht : (rs t).owns = true := hrole ▸ howns
  apply h.of_owner
  · exact fun u hu => h.others_of_owns ht hu
  · exact hr
  · exact h.exlink t ht
  · exact h.quiet
  · exact hwanted
  · exact hown
  · exact hmine
  · exact htidy

end

theorem enter (hrole : rs t = r) (hexlink : v.lock.exlink = false) (hr : r'.owns = true)
    (hexlink' : l'.exlink = true) (hquiet : Quiet l')
    (hwanted : v.wires.head ≠ none ∨ r'.Links (v.state t) → l'.exwanted = true ∧ l'.count ≠ 0)
    (hmine : r.MayLink → r'.MayLink)
    (htidy : Fits v.wires (linked v.state) → r'.Tidy t v.wires (linked v.state)) :
    Inv ⟨l', v.wires, v.state⟩ (update rs t r') := by
  have hnobody := h.nobody_of_exlink hexlink
  apply h.of_owner
  · exact fun u _ => hnobody u
  · exact hr
  · exact hexlink'
  · exact hquiet
  · exact hwanted
  · exact fun _ _ => id
  · exact fun hstate => hmine (h.may_link hrole hstate)
  · exact htidy (h.free hnobody)

theorem wanted_of_head (hhead : v.wires.head ≠ none) : v.lock.exwanted = true ∧ v.lock.count ≠ 0 :=
  h.wanted (.inl hhead)

theorem wanted_of_links (hrole : rs t = r) (hlinks : r.Links (v.state t)) :
    v.lock.exwanted = true ∧ v.lock.count ≠ 0 :=
  h.wanted (.inr ⟨t, by rw [hrole]; exact hlinks⟩)

end

variable {l : LockWord} {q : Wires T} {st : T → LinkState}

theorem join (h : Inv ⟨l, q, st⟩ rs)
    (hrole : rs t = .away) (hexlink : l.exlink = false) (hfree : l ≠ .free) :
    Inv ⟨{ l with exwanted := true, exlink := true }, q, st⟩ (update rs t .joining) := by
  have hcount : l.count ≠ 0 := by
    intro hzero
    obtain ⟨hexclusive, hshared, hwanted⟩ := h.quiet hzero
    apply hfree
    cases l
    simp only at hexlink hexclusive hshared hwanted hzero
    rw [hexlink, hexclusive, hshared, hwanted, hzero]
    rfl
  apply h.enter hrole hexlink rfl
  · rfl
  · intro hzero
    exact absurd hzero hcount
  · intro _
    exact ⟨rfl, hcount⟩
  · exact id
  · exact id

theorem link (h : Inv ⟨l, q, st⟩ rs) (hrole : rs t = .binding) :
    Inv ⟨l, q, update st t .linked⟩ (update rs t (.inserting .testQueue)) := by
  have hnot : st t ≠ .linked := h.not_linked hrole id
  have hfits : Fits q (linked st) := h.tidy_of hrole rfl
  apply h.inside hrole rfl rfl
  · intro _
    exact h.wanted_of_links hrole trivial
  · intro u hu hstate
    rw [update_of_ne hu] at hstate
    exact hstate
  · intro _
    trivial
  · apply Fits.inserts
    · apply hfits.congr
      intro u
      by_cases hu : u = t
      · subst hu
        constructor
        · intro hstate
          exact absurd hstate hnot
        · intro hstate
          exact absurd rfl hstate.2
      · rw [linked, linked, update_of_ne hu]
        exact ⟨fun hstate => ⟨hstate, hu⟩, And.left⟩
    · exact update_self _ _ _

theorem mark (h : Inv ⟨l, q, st⟩ rs) (hrole : rs t = .unlinked job w alone)
    (hown : job = .delete → w = t) :
    Inv ⟨l, q, update st w job.state⟩ (update rs t (job.after alone)) := by
  obtain ⟨hfits, halone⟩ : Fits q (fun u => linked st u ∧ u ≠ w) ∧ (alone = true → q.head = none) :=
    h.tidy_of hrole rfl
  have hjob : job.state ≠ .linked := by
    cases job <;> nofun
  have hlinked : ∀ u, update st w job.state u = .linked → st u = .linked ∧ u ≠ w := by
    intro u hu
    have huw : u ≠ w := by
      rintro rfl
      rw [update_self] at hu
      exact hjob hu
    rw [update_of_ne huw] at hu
    exact ⟨hu, huw⟩
  have hfits' : Fits q (linked (update st w job.state)) := by
    apply hfits.congr
    intro u
    constructor
    · rintro ⟨hu, huw⟩
      rw [linked, update_of_ne huw]
      exact hu
    · exact hlinked u
  have hnone : ∀ r : LinkState, ¬ (job.after alone : Role T).Links r := by
    intro r
    cases job <;> exact id
  apply h.inside hrole rfl
  · cases job <;> rfl
  · rintro (hhead | hlinks)
    · exact h.wanted_of_head hhead
    · exact absurd hlinks (hnone _)
  · intro u _ hu
    exact (hlinked u hu).1
  · intro hstate
    obtain ⟨hmine, htw⟩ := hlinked t hstate
    have hmay := h.own t hmine
    rw [hrole] at hmay
    cases job with
    | delete => exact absurd (hown rfl).symm htw
    | chain | abort => exact hmay.elim
  · cases job with
    | delete | abort => exact hfits'
    | chain => exact ⟨hfits', halone⟩

theorem look (h : Inv v rs) (hrole : rs t = r) (howns : r.owns = true) (hr : r'.owns = true)
    (hlinks : r'.Links (v.state t) → r.Links (v.state t))
    (hmine : v.state t = .linked → r.MayLink → r'.MayLink)
    (htidy : r.Tidy t v.wires (linked v.state) → r'.Tidy t v.wires (linked v.state)) :
    Inv v (update rs t r') := by
  apply h.inside hrole howns hr
  · rintro (hhead | hnew)
    · exact h.wanted_of_head hhead
    · exact h.wanted_of_links hrole (hlinks hnew)
  · exact fun _ _ => id
  · exact fun hstate => hmine hstate (h.may_link hrole hstate)
  · exact htidy (h.tidy_of hrole howns)

theorem act (h : Inv v rs) (hact : Act t v (rs t) v' r') : Inv v' (update rs t r') := by
  generalize hrole : rs t = r at hact
  cases hact with
  | stay =>
    rw [← hrole, update_eq_self]
    exact h
  | word hkeeps =>
    apply h.outside
    · rw [hrole]
      rfl
    · rfl
    · rfl
    · exact hkeeps
    · exact fun _ _ => rfl
    · exact Iff.rfl
    · intro hstate
      exact absurd hstate (h.not_linked hrole id)
  | join hexlink hfree => exact h.join hrole hexlink hfree
  | leave hexlink =>
    apply h.enter hrole hexlink rfl
    · rfl
    · exact h.quiet
    · rintro (hhead | hlinks)
      · exact h.wanted_of_head hhead
      · exact hlinks.elim
    · intro _
      trivial
    · exact id
  | claim hexlink =>
    apply h.enter hrole hexlink rfl
    · rfl
    · exact h.quiet
    · rintro (hhead | hlinks)
      · exact h.wanted_of_head hhead
      · exact hlinks.elim
    · exact id
    · exact id
  | seize hexlink hwanted hcount =>
    apply h.enter hrole hexlink rfl
    · rfl
    · intro hzero
      simp only at hzero
      omega
    · intro _
      exact ⟨hwanted, by simp only; omega⟩
    · exact id
    · exact id
  | close =>
    apply h.exit hrole rfl rfl
    · exact h.quiet
    · exact h.wanted_of_head
    · exact id
    · exact h.tidy_of hrole rfl
  | rest =>
    apply h.exit hrole rfl rfl
    · exact h.quiet
    · exact h.wanted_of_head
    · exact fun _ => trivial
    · exact h.tidy_of hrole rfl
  | @pass l q st alone =>
    obtain ⟨hfits, halone⟩ : Fits q (linked st) ∧ (alone = true → q.head = .none) :=
      h.tidy_of hrole rfl
    apply h.exit hrole rfl rfl
    · intro hzero
      obtain ⟨hexclusive, hshared, hwanted⟩ := h.quiet hzero
      refine ⟨hexclusive, hshared, ?_⟩
      simp only at hwanted
      simp only [hwanted, Bool.false_and]
    · intro hhead
      obtain ⟨hwanted, hcount⟩ := h.wanted_of_head hhead
      have hfalse : alone = false := by
        cases halone' : alone with
        | false => rfl
        | true => exact absurd (halone halone') hhead
      refine ⟨?_, hcount⟩
      simp only at hwanted
      simp only [hwanted, hfalse, Bool.not_false, Bool.and_true]
    · exact id
    · exact hfits
  | empty =>
    obtain ⟨hfits, hempty⟩ := h.tidy_of hrole rfl
    apply h.exit hrole rfl rfl
    · intro _
      exact ⟨rfl, rfl, rfl⟩
    · intro hhead
      exact absurd hempty hhead
    · exact id
    · exact hfits
  | @init l q st =>
    have hnot : st t ≠ .linked := h.not_linked hrole id
    have hidle : update st t .idle t ≠ .linked := by
      rw [update_self]
      nofun
    apply h.outside
    · rw [hrole]
      rfl
    · rfl
    · rfl
    · exact ⟨rfl, id, fun _ => id, id⟩
    · intro u hu
      exact update_of_ne hu _ _
    · exact ⟨fun hstate => absurd hstate hidle, fun hstate => absurd hstate hnot⟩
    · intro hstate
      exact absurd hstate hidle
  | bind hstate =>
    apply h.look hrole rfl rfl
    · intro _
      exact hstate
    · exact fun _ => id
    · exact id
  | turn =>
    apply h.look hrole rfl rfl
    · exact elim
    · exact fun _ => id
    · exact id
  | link => exact h.link hrole
  | insert hstep =>
    apply h.inside hrole rfl rfl
    · intro _
      exact h.wanted_of_links hrole trivial
    · exact fun _ _ => id
    · intro _
      trivial
    · exact Inserts.go (h.tidy_of hrole rfl) hstep
  | inserted hstep =>
    apply h.inside hrole rfl rfl
    · intro _
      exact h.wanted_of_links hrole trivial
    · exact fun _ _ => id
    · intro _
      trivial
    · exact Inserts.last (h.tidy_of hrole rfl) hstep
  | wake hstate =>
    apply h.outside
    · rw [hrole]
      rfl
    · rfl
    · rfl
    · exact ⟨rfl, id, fun _ => id, id⟩
    · exact fun _ _ => rfl
    · exact Iff.rfl
    · intro hlinked
      exact absurd hlinked hstate
  | gone hstate =>
    apply h.look hrole rfl rfl
    · exact elim
    · exact fun hlinked => absurd hlinked hstate
    · exact id
  | delete hstate =>
    apply h.look hrole rfl rfl
    · exact elim
    · exact fun _ _ => trivial
    · intro hfits
      exact hfits.unlinks hstate
  | choose hhead | none hhead =>
    apply h.look hrole rfl rfl
    · exact elim
    · exact fun _ => id
    · intro hfits
      exact ⟨hfits, hhead⟩
  | pick hstate =>
    apply h.look hrole rfl rfl
    · exact elim
    · exact fun _ => id
    · intro hfits
      exact hfits.1.unlinks hstate
  | abort hstate =>
    apply h.look hrole rfl rfl
    · exact elim
    · exact fun _ => id
    · intro hfits
      exact hfits.unlinks hstate
  | @abortIdle _ w hstate =>
    apply h.look hrole rfl rfl
    · exact elim
    · exact fun _ => id
    · intro hfits
      refine ⟨hfits.congr ?_, nofun⟩
      intro u
      constructor
      · intro hlinked
        refine ⟨hlinked, ?_⟩
        rintro rfl
        rw [linked, hstate] at hlinked
        cases hlinked
      · exact And.left
  | @unlink w q p q' p' l st job hstep =>
    have hpending : Unlinks q (linked st) w p := h.tidy_of hrole rfl
    apply h.inside hrole rfl rfl
    · intro _
      exact h.wanted_of_head hpending.1
    · exact fun _ _ => id
    · intro hlinked
      have hmay := h.own t hlinked
      rw [hrole] at hmay
      cases job <;> exact hmay
    · exact hpending.go hstep
  | @unlinked w q p q' alone known l st job hstep hknown =>
    have hpending : Unlinks q (linked st) w p := h.tidy_of hrole rfl
    obtain ⟨hfits, halone⟩ := hpending.last hstep
    apply h.inside hrole rfl rfl
    · intro _
      exact h.wanted_of_head hpending.1
    · exact fun _ _ => id
    · intro hlinked
      have hmay := h.own t hlinked
      rw [hrole] at hmay
      cases job <;> exact hmay
    · exact ⟨hfits, fun hset => halone (hknown hset)⟩
  | mark hown => exact h.mark hrole hown

theorem unwant
    (h : Inv v rs) (hhead : v.wires.head = none) (hlinks : ∀ u, ¬ (rs u).Links (v.state u)) :
    Inv { v with lock := { v.lock with exwanted := false } } rs := by
  refine ⟨h.unique, h.exlink, ?_, ?_, h.own, h.tidy, h.free⟩
  · intro hzero
    obtain ⟨hexclusive, hshared, _⟩ := h.quiet hzero
    exact ⟨hexclusive, hshared, rfl⟩
  · rintro (hsome | ⟨u, hu⟩)
    · exact absurd hhead hsome
    · exact absurd hu (hlinks u)

end Inv

end Invariant

end DragonFly.Mutex.Queue

namespace DragonFly.Mutex

open Function

variable {T : Type}

def Mem.Queued (m : Mem T) (w : T) : Prop :=
  ∃ first, m.head = some first ∧ Relation.ReflTransGen (fun a b => (m.link a).next = some b) first w

namespace State

/-- A thread has set `MTX_EXLINK` and `MTX_EXWANTED` to link itself in, and has not given
`MTX_EXLINK` back. -/
def Linking (s : State T) (u : T) : Prop :=
  match s.pc u with
  | .lockEx _ .checkAborted => (s.mem.link u).state ≠ .aborted
  | .lockEx _ .setLinkOwner | .lockEx _ .setLinked | .lockEx _ .testQueue
  | .lockEx _ .setNext | .lockEx _ .setPrev | .lockEx _ .setNextPrev | .lockEx _ .setPrevNext
  | .lockEx _ .setNextSelf | .lockEx _ .setPrevSelf | .lockEx _ .setHead
  | .lockEx _ .release => True
  | _ => False

instance (s : State T) (u : T) : Decidable (s.Linking u) := by
  unfold Linking
  split <;> infer_instance

/-- An early abort clears `MTX_EXWANTED` only while nobody is queued or linking. -/
def Calm (s : State T) (e : T × Input T) : Prop :=
  match s.pc e.1 with
  | .lockEx _ .dropWanted => s.mem.head = none ∧ ∀ u, ¬ s.Linking u
  | _ => True

instance [Fintype T] [DecidableEq T] (s : State T) (e : T × Input T) : Decidable (s.Calm e) := by
  unfold Calm
  split <;> infer_instance

theorem linking_of_links {s : State T} (h : (Queue.role u (s.pc u)).Links (s.mem.link u).state) :
    s.Linking u := by
  unfold Linking
  cases hpc : s.pc u with
  | lockEx kind p =>
    rw [hpc] at h
    cases p with
    | checkAborted => exact h
    | delete e p => cases p <;> exact h.elim
    | _ => trivial
  | unlock p =>
    rw [hpc] at h
    cases p with
    | chain p =>
      cases p with
      | read link alone | swap link alone lock => cases link <;> exact h.elim
      | _ => exact h.elim
    | _ => exact h.elim
  | abort w p =>
    rw [hpc] at h
    cases p <;> exact h.elim
  | _ =>
    rw [hpc] at h
    exact h.elim

variable [DecidableEq T]

structure Orderly (s : State T) : Prop where
  inv : Queue.Inv (Queue.view s.mem) fun u => Queue.role u (s.pc u)
  knows : ∀ u, (s.pc u).Knows

theorem Initial.orderly {s : State T} (h : s.Initial) : s.Orderly := by
  have hrole : ∀ u, Queue.role u (s.pc u) = .away := by
    intro u
    rw [h.pc u]
    rfl
  have hnot : ∀ u, (Queue.view s.mem).state u ≠ .linked := by
    intro u hlinked
    have hidle : (Queue.view s.mem).state u = .idle := h.state u
    rw [hidle] at hlinked
    cases hlinked
  have hlock : (Queue.view s.mem).lock = .free := h.lock
  constructor
  · constructor
    · intro t u ht
      rw [hrole t] at ht
      cases ht
    · intro t ht
      rw [hrole t] at ht
      cases ht
    · intro _
      rw [hlock]
      exact ⟨rfl, rfl, rfl⟩
    · rintro (hhead | ⟨u, hu⟩)
      · exact absurd h.head hhead
      · rw [hrole u] at hu
        exact hu.elim
    · intro t ht
      exact absurd ht (hnot t)
    · intro t ht
      rw [hrole t] at ht
      cases ht
    · intro _
      refine ⟨[], .nil h.head, ?_⟩
      intro w
      exact ⟨nofun, fun hw => absurd hw (hnot w)⟩
  · intro u
    rw [h.pc u]
    trivial

theorem role_update (s : State T) (t : T) (pc : Pc T) :
    (fun u => Queue.role u (update s.pc t pc u)) =
      update (fun u => Queue.role u (s.pc u)) t (Queue.role t pc) := by
  funext u
  by_cases hu : u = t
  · rw [hu, update_self, update_self]
  · rw [update_of_ne hu, update_of_ne hu]

theorem Orderly.dropWanted {s : State T} (h : s.Orderly) (hpc : s.pc t = .lockEx kind .dropWanted)
    (hcalm : s.mem.head = none ∧ ∀ u, ¬ s.Linking u) {held : T → Held} :
    Orderly
      { mem := { s.mem with lock := { s.mem.lock with exwanted := false } }
        held := held
        pc := update s.pc t (.idle .enolck) } := by
  constructor
  · have hinv := h.inv.unwant hcalm.1 fun u hu => hcalm.2 u (linking_of_links hu)
    simp only [role_update]
    have hrole : Queue.role t (.idle .enolck) = Queue.role t (s.pc t) := by
      rw [hpc]
      rfl
    rw [hrole, update_eq_self (f := fun u => Queue.role u (s.pc u))]
    exact hinv
  · intro u
    by_cases hu : u = t
    · simp only [hu, update_self]
      trivial
    · simp only [update_of_ne hu]
      exact h.knows u

theorem Orderly.next {s s' : State T} (h : s.Orderly) (hcalm : s.Calm e)
    (hnext : s.next e = some s') : s'.Orderly := by
  obtain ⟨t, input⟩ := e
  simp only [State.next, Option.map_eq_some_iff] at hnext
  obtain ⟨o, hstep, rfl⟩ := hnext
  by_cases hdrop : ∃ kind, s.pc t = .lockEx kind .dropWanted
  · obtain ⟨kind, hpc⟩ := hdrop
    simp only [Calm, hpc] at hcalm
    rw [hpc] at hstep
    cases input with
    | call c => cases hstep
    | run error =>
      cases hstep
      exact h.dropWanted hpc hcalm
  · have hperforms := Queue.pcStep_queue (h.knows t) (fun kind hpc => hdrop ⟨kind, hpc⟩) hstep
    constructor
    · have hinv := h.inv.act hperforms.1
      simp only [role_update]
      exact hinv
    · intro u
      by_cases hu : u = t
      · simp only [hu, update_self]
        exact hperforms.2
      · simp only [update_of_ne hu]
        exact h.knows u

/-- While a link waits, `MTX_EXWANTED` is set and the lock is held, so the last release
goes through `mtx_chain_link`, and that finds a link that waits. -/
theorem waiter_wanted {s : State T} (h : Reachable Initial Calm next s) :
    (s.mem.lock.exlink = false → (∃ w, s.mem.Queued w ∧ (s.mem.link w).state = .linked) →
      s.mem.lock.exwanted = true ∧ s.mem.lock.count ≠ 0) ∧
    (s.mem.lock.count = 0 → ∀ w, ¬ s.mem.Queued w) ∧
    (∀ t w, s.pc t = .unlock (.chain .head) → (s.mem.link w).state = .linked →
      ∃ v, s.mem.head = some v ∧ (s.mem.link v).state = .linked) ∧
    ∀ t w, s.pc t = .unlock (.chain (.assertLinked w)) → (s.mem.link w).state = .linked := by
  have horderly : s.Orderly :=
    h.invariant Orderly (fun _ hs => hs.orderly)
      fun _ _ _ hs hcalm hnext => hs.next hcalm hnext
  have hqueued : ∀ w, s.mem.Queued w → s.mem.lock.exwanted = true ∧ s.mem.lock.count ≠ 0 := by
    rintro w ⟨first, hfirst, _⟩
    apply horderly.inv.wanted_of_head
    change s.mem.head ≠ none
    rw [hfirst]
    exact Option.some_ne_none first
  refine ⟨?_, ?_, ?_, ?_⟩
  · rintro _ ⟨w, hw, _⟩
    exact hqueued w hw
  · intro hzero w hw
    exact (hqueued w hw).2 hzero
  · intro t w hpc hlinked
    have hrole : Queue.role t (s.pc t) = .closing := by rw [hpc]; rfl
    have hfits : Queue.Fits (Queue.view s.mem).wires (Queue.linked (Queue.view s.mem).state) :=
      horderly.inv.tidy_of (t := t) hrole rfl
    obtain ⟨v, hv⟩ := Option.ne_none_iff_exists'.mp (hfits.head_ne_none hlinked)
    exact ⟨v, hv, hfits.head_mem hv⟩
  · intro t w hpc
    have hrole : Queue.role t (s.pc t) = .choosing w := by rw [hpc]; rfl
    have hchosen : Queue.Fits (Queue.view s.mem).wires (Queue.linked (Queue.view s.mem).state) ∧
        (Queue.view s.mem).wires.head = some w :=
      horderly.inv.tidy_of (t := t) hrole rfl
    exact hchosen.1.head_mem hchosen.2

/-! ## Three threads -/

def threeThreads : State (Fin 3) where
  mem :=
    { lock := .free
      owner := none
      head := none
      link := fun _ => ⟨none, none, none, .idle⟩ }
  held _ := ⟨0, 0⟩
  pc _ := .idle .ok

theorem threeThreads_initial : threeThreads.Initial :=
  ⟨rfl, rfl, rfl, fun _ => rfl, fun _ => rfl, fun _ => rfl⟩

def walks (t : Fin 3) (n : ℕ) : List (Fin 3 × Input (Fin 3)) :=
  List.replicate n (t, .run false)

/-- Thread 0 has the mutex, and thread 1 comes with a link that is aborted. -/
def comesAborted : List (Fin 3 × Input (Fin 3)) :=
  (0, .call .lockEx) :: walks 0 4 ++ (1, .call (.abortExLink 1)) :: walks 1 5 ++
    (1, .call .lockExLink) :: walks 1 6

def waits : List (Fin 3 × Input (Fin 3)) :=
  (2, .call .lockEx) :: walks 2 12

/-- Thread 1 has left before thread 2 comes. -/
theorem waiter_wanted_after_abort :
    ∃ s : State (Fin 3), Reachable Initial Calm next s ∧ s.pc 1 = .idle .enolck ∧
      s.mem.head = some 2 ∧ s.mem.lock.exwanted = true ∧ s.mem.lock.count ≠ 0 := by
  have hrun : ((runEvents Calm next threeThreads (comesAborted ++ walks 1 1 ++ waits)).map
      fun s => (s.pc 1, s.mem.head, s.mem.lock.exlink, (s.mem.link 2).state)) =
      some (.idle .enolck, some 2, false, .linked) := by
    decide +kernel
  have hstart : Reachable Initial Calm next threeThreads := .start threeThreads_initial
  obtain ⟨s, hreach, hview⟩ := hstart.view hrun
  simp only [Prod.mk.injEq] at hview
  obtain ⟨hpc, hhead, hexlink, hstate⟩ := hview
  exact ⟨s, hreach, hpc, hhead, (waiter_wanted hreach).1 hexlink ⟨2, ⟨2, hhead, .refl⟩, hstate⟩⟩

/-- Thread 1 has seen an empty queue, thread 2 comes, and thread 1 clears `MTX_EXWANTED`.
When thread 0 gives the mutex back it becomes free, and thread 2 sleeps on. -/
theorem waiter_stranded :
    ∃ s : State (Fin 3), Reachable Initial Holding next s ∧ s.mem.lock = .free ∧
      s.mem.Queued 2 ∧ (s.mem.link 2).state = .linked ∧ s.pc 2 = .lockEx .block .sleep := by
  have hrun : ((runEvents Holding next threeThreads (comesAborted ++ waits ++ walks 1 1 ++
      (0, .call .unlock) :: walks 0 3)).map
      fun s => (s.mem.lock, s.mem.head, (s.mem.link 2).state, s.pc 2)) =
      some (.free, some 2, .linked, .lockEx .block .sleep) := by
    decide +kernel
  have hstart : Reachable Initial Holding next threeThreads := .start threeThreads_initial
  obtain ⟨s, hreach, hview⟩ := hstart.view hrun
  simp only [Prod.mk.injEq] at hview
  obtain ⟨hlock, hhead, hstate, hpc⟩ := hview
  exact ⟨s, hreach, hlock, ⟨2, hhead, .refl⟩, hstate, hpc⟩

end State

end DragonFly.Mutex
