import DragonFly.SlabZone

/-!
# The slab allocator in every interleaving

The invariant of the whole system: every zone in use is sound, the zones on the lists
of a cpu are the ones it owns and can allocate from, and a zone that is not in use is
out of everybody's hands.  An operation of the owner changes one zone and the lists of
its own cpu, a step of another cpu changes one zone and no list.
-/

namespace DragonFly.Slab

open Function State

section Flight

/-- The operation on a zone that is under way and that the lists or the count of free
chunks have to make up for. -/
def SLGlobalData.flight (g : SLGlobalData) (zone : ℕ) : Option Kind :=
  match g.op with
  | some (.work (.malloc size k) zone' _) => if zone' = zone then some (.malloc size k) else none
  | some (.work (.remote nfree) zone' _) => if zone' = zone then some (.remote nfree) else none
  | _ => none

/-- One while a chunk has been counted off and not been taken. -/
def takenBy : Option Kind → ℤ
  | some (.malloc _ _) => 1
  | _ => 0

def Listed (flight : Option Kind) (nFree : ℤ) : Prop :=
  match flight with
  | some (.malloc _ _) => True
  | some (.remote nfree) => 0 < nfree
  | _ => 0 < nFree

end Flight

section Invariant

variable {C : Type}

/-- What an operation of the owner may count on. -/
def Working (g : SLGlobalData) (kind : Kind) (zone : ℕ) (z : SLZone C) : Prop :=
  match kind with
  | .malloc size k =>
    0 < size ∧ zoneindex size = some k ∧ k.index = z.zoneIndex ∧ 0 ≤ z.nFree ∧
      (g.zoneAry k.index).head? = some zone
  | .remote nfree => 0 ≤ nfree ∧ nfree ≤ z.nFree
  | .cleanup i => z.zoneIndex = i ∧ 0 < z.nFree

structure Inv (cfg : Config) (s : State C) : Prop where
  running : s.panicked = false
  zone : ∀ zone z, (s.slot zone).header = some z → z.magic = true → z.kup = some z.cpu ∧
      ∃ L R, Sound cfg (s.slot zone) z (takenBy ((s.slgd z.cpu).flight zone)) L R
  unused : ∀ zone, (∀ z, (s.slot zone).header = some z → z.magic = false) → (s.slot zone).Unused
  ary_nodup : ∀ c i, ((s.slgd c).zoneAry i).Nodup
  mem_ary : ∀ c i zone, zone ∈ (s.slgd c).zoneAry i ↔
    ∃ z, (s.slot zone).header = some z ∧ z.magic = true ∧ z.cpu = c ∧ z.zoneIndex = i ∧
      Listed ((s.slgd c).flight zone) z.nFree
  free_nodup : ∀ c, (s.slgd c).freeZones.Nodup
  mem_free : ∀ c zone, zone ∈ (s.slgd c).freeZones ↔
    ∃ z, (s.slot zone).header = some z ∧ z.magic = false ∧ z.cpu = c
  busy : ∀ c kind zone pc, (s.slgd c).op = some (.work kind zone pc) →
    ∃ z, (s.slot zone).header = some z ∧ z.magic = true ∧ z.cpu = c ∧ Working (s.slgd c) kind zone z
  blocked : ∀ c, ∀ size ∈ (s.slgd c).blocked, cfg.Zoned size

theorem inv_initial (cfg : Config) : Inv cfg (State.initial : State C) := by
  constructor
  · rfl
  · intro zone z hz
    simp [initial] at hz
  · intro zone _
    exact ⟨rfl, rfl, rfl⟩
  · intro c i
    exact List.nodup_nil
  · intro c i zone
    simp [initial]
  · intro c
    exact List.nodup_nil
  · intro c zone
    simp [initial]
  · intro c kind zone pc hop
    simp [initial] at hop
  · intro c size hsize
    simp [initial] at hsize

variable [DecidableEq C]

/-- A cpu and one of its zones after a step: `σ` is the place of the zone, `g` are the
lists of the cpu. -/
structure Change (cfg : Config) (s : State C) (c : C) (zone : ℕ) (σ : Slot C)
    (g : SLGlobalData) : Prop where
  owner : ∀ z, (s.slot zone).header = some z → z.cpu = c
  owner' : ∀ z, σ.header = some z → z.cpu = c
  sound : ∀ z, σ.header = some z → z.magic = true →
    z.kup = some c ∧ ∃ L R, Sound cfg σ z (takenBy (g.flight zone)) L R
  unused : (∀ z, σ.header = some z → z.magic = false) → σ.Unused
  flight : ∀ zone', zone' ≠ zone → g.flight zone' = (s.slgd c).flight zone'
  ary_nodup : ∀ i, (g.zoneAry i).Nodup
  ary : ∀ i zone', zone' ≠ zone → (zone' ∈ g.zoneAry i ↔ zone' ∈ (s.slgd c).zoneAry i)
  mem_ary : ∀ i, zone ∈ g.zoneAry i ↔ ∃ z, σ.header = some z ∧ z.magic = true ∧ z.zoneIndex = i ∧
      Listed (g.flight zone) z.nFree
  free_nodup : g.freeZones.Nodup
  free : ∀ zone', zone' ≠ zone → (zone' ∈ g.freeZones ↔ zone' ∈ (s.slgd c).freeZones)
  mem_free : zone ∈ g.freeZones ↔ ∃ z, σ.header = some z ∧ z.magic = false
  busy : ∀ kind zone' pc, g.op = some (.work kind zone' pc) →
    ∃ z, (update s.slot zone σ zone').header = some z ∧ z.magic = true ∧ z.cpu = c ∧
      Working g kind zone' z
  blocked : ∀ size ∈ g.blocked, cfg.Zoned size

variable {cfg : Config} {s : State C} {c : C} {zone : ℕ} {σ : Slot C} {g : SLGlobalData}

theorem Inv.change (h : Inv cfg s) (hchange : Change cfg s c zone σ g) :
    Inv cfg ((s.setSlot zone σ).setSlgd c g) := by
  have hslot : ∀ zone', zone' ≠ zone →
      ((s.setSlot zone σ).setSlgd c g).slot zone' = s.slot zone' := by
    intro zone' hne
    exact update_of_ne hne σ s.slot
  have hslot' : ((s.setSlot zone σ).setSlgd c g).slot zone = σ := by
    simp [setSlot, setSlgd]
  have hslgd : ∀ c', c' ≠ c → ((s.setSlot zone σ).setSlgd c g).slgd c' = s.slgd c' := by
    intro c' hne
    exact update_of_ne hne g s.slgd
  have hslgd' : ((s.setSlot zone σ).setSlgd c g).slgd c = g := by
    simp [setSlgd]
  -- Zones that are not touched are under the same operations as before.
  have hflight : ∀ c' zone', zone' ≠ zone →
      (((s.setSlot zone σ).setSlgd c g).slgd c').flight zone' = (s.slgd c').flight zone' := by
    intro c' zone' hne
    by_cases hc : c' = c
    · subst hc
      rw [hslgd']
      exact hchange.flight zone' hne
    · rw [hslgd c' hc]
  constructor
  · exact h.running
  · intro zone' z hz hmagic
    by_cases hne : zone' = zone
    · subst hne
      rw [hslot'] at hz ⊢
      have hcpu := hchange.owner' z hz
      rw [hcpu, hslgd']
      exact hchange.sound z hz hmagic
    · rw [hslot zone' hne] at hz ⊢
      rw [hflight z.cpu zone' hne]
      exact h.zone zone' z hz hmagic
  · intro zone' hmagic
    by_cases hne : zone' = zone
    · subst hne
      rw [hslot'] at hmagic ⊢
      exact hchange.unused hmagic
    · rw [hslot zone' hne] at hmagic ⊢
      exact h.unused zone' hmagic
  · intro c' i
    by_cases hc : c' = c
    · subst hc
      rw [hslgd']
      exact hchange.ary_nodup i
    · rw [hslgd c' hc]
      exact h.ary_nodup c' i
  · intro c' i zone'
    by_cases hne : zone' = zone
    · subst hne
      rw [hslot']
      by_cases hc : c' = c
      · subst hc
        rw [hslgd', hchange.mem_ary i]
        constructor
        · rintro ⟨z, hz, hmagic, hindex, hlisted⟩
          exact ⟨z, hz, hmagic, hchange.owner' z hz, hindex, hlisted⟩
        · rintro ⟨z, hz, hmagic, _, hindex, hlisted⟩
          exact ⟨z, hz, hmagic, hindex, hlisted⟩
      · rw [hslgd c' hc, h.mem_ary c' i zone']
        constructor
        · rintro ⟨z, hz, _, hcpu, _⟩
          exact absurd (hcpu.symm.trans (hchange.owner z hz)) hc
        · rintro ⟨z, hz, _, hcpu, _⟩
          exact absurd (hcpu.symm.trans (hchange.owner' z hz)) hc
    · rw [hslot zone' hne, hflight c' zone' hne]
      by_cases hc : c' = c
      · subst hc
        rw [hslgd', hchange.ary i zone' hne]
        exact h.mem_ary c' i zone'
      · rw [hslgd c' hc]
        exact h.mem_ary c' i zone'
  · intro c'
    by_cases hc : c' = c
    · subst hc
      rw [hslgd']
      exact hchange.free_nodup
    · rw [hslgd c' hc]
      exact h.free_nodup c'
  · intro c' zone'
    by_cases hne : zone' = zone
    · subst hne
      rw [hslot']
      by_cases hc : c' = c
      · subst hc
        rw [hslgd', hchange.mem_free]
        constructor
        · rintro ⟨z, hz, hmagic⟩
          exact ⟨z, hz, hmagic, hchange.owner' z hz⟩
        · rintro ⟨z, hz, hmagic, _⟩
          exact ⟨z, hz, hmagic⟩
      · rw [hslgd c' hc, h.mem_free c' zone']
        constructor
        · rintro ⟨z, hz, _, hcpu⟩
          exact absurd (hcpu.symm.trans (hchange.owner z hz)) hc
        · rintro ⟨z, hz, _, hcpu⟩
          exact absurd (hcpu.symm.trans (hchange.owner' z hz)) hc
    · rw [hslot zone' hne]
      by_cases hc : c' = c
      · subst hc
        rw [hslgd', hchange.free zone' hne]
        exact h.mem_free c' zone'
      · rw [hslgd c' hc]
        exact h.mem_free c' zone'
  · intro c' kind zone' pc hop
    by_cases hc : c' = c
    · subst hc
      rw [hslgd'] at hop ⊢
      exact hchange.busy kind zone' pc hop
    · rw [hslgd c' hc] at hop ⊢
      obtain ⟨z, hz, hmagic, hcpu, hworking⟩ := h.busy c' kind zone' pc hop
      have hne : zone' ≠ zone := by
        rintro rfl
        exact hc (hcpu.symm.trans (hchange.owner z hz))
      rw [hslot zone' hne]
      exact ⟨z, hz, hmagic, hcpu, hworking⟩
  · intro c' size hsize
    by_cases hc : c' = c
    · subst hc
      rw [hslgd'] at hsize
      exact hchange.blocked size hsize
    · rw [hslgd c' hc] at hsize
      exact h.blocked c' size hsize

theorem Inv.keep (h : Inv cfg s) (hz : (s.slot zone).header = some z) (hmagic : z.magic = true)
    (hheader : σ.header = some z') (hsame : Same z z')
    (hsound : ∃ L R, Sound cfg σ z' (takenBy ({ s.slgd z.cpu with op := op }.flight zone)) L R)
    (hlisted : Listed ({ s.slgd z.cpu with op := op }.flight zone) z'.nFree ↔
      Listed ((s.slgd z.cpu).flight zone) z.nFree)
    (hflight : ∀ zone', zone' ≠ zone →
      { s.slgd z.cpu with op := op }.flight zone' = (s.slgd z.cpu).flight zone')
    (hbusy : ∀ kind zone' pc, op = some (.work kind zone' pc) →
      ∃ y, (update s.slot zone σ zone').header = some y ∧ y.magic = true ∧
        y.cpu = z.cpu ∧ Working (s.slgd z.cpu) kind zone' y) :
    Inv cfg ((s.setSlot zone σ).setOp z.cpu op) := by
  have hmagic' : z'.magic = true := hsame.magic.trans hmagic
  apply h.change
  constructor
  · intro y hy
    rw [hz] at hy
    cases hy
    rfl
  · intro y hy
    rw [hheader] at hy
    cases hy
    exact hsame.cpu
  · intro y hy _
    rw [hheader] at hy
    cases hy
    refine ⟨?_, hsound⟩
    rw [hsame.kup]
    exact (h.zone zone z hz hmagic).1
  · intro hnot
    have hfalse := hnot z' hheader
    rw [hmagic'] at hfalse
    simp at hfalse
  · exact hflight
  · exact h.ary_nodup z.cpu
  · intro i zone' _
    exact Iff.rfl
  · intro i
    rw [show (s.setSlot zone σ).slgd z.cpu = s.slgd z.cpu from rfl, h.mem_ary z.cpu i zone]
    constructor
    · rintro ⟨y, hy, _, _, hindex, hlist⟩
      rw [hz] at hy
      cases hy
      exact ⟨z', hheader, hmagic', hsame.zoneIndex.trans hindex, hlisted.mpr hlist⟩
    · rintro ⟨y, hy, _, hindex, hlist⟩
      rw [hheader] at hy
      cases hy
      exact ⟨z, hz, hmagic, rfl, hsame.zoneIndex.symm.trans hindex, hlisted.mp hlist⟩
  · exact h.free_nodup z.cpu
  · intro zone' _
    exact Iff.rfl
  · rw [show (s.setSlot zone σ).slgd z.cpu = s.slgd z.cpu from rfl, h.mem_free z.cpu zone]
    constructor
    · rintro ⟨y, hy, hfalse, _⟩
      rw [hz] at hy
      cases hy
      rw [hmagic] at hfalse
      simp at hfalse
    · rintro ⟨y, hy, hfalse⟩
      rw [hheader] at hy
      cases hy
      rw [hmagic'] at hfalse
      simp at hfalse
  · exact hbusy
  · exact h.blocked z.cpu

theorem setOp_self (s : State C) (c : C) : s.setOp c (s.slgd c).op = s := by
  have heq : update s.slgd c (s.slgd c) = s.slgd := update_eq_self c s.slgd
  unfold setOp setSlgd
  rw [heq]

theorem Inv.remote (h : Inv cfg s) (hz : (s.slot zone).header = some z) (hmagic : z.magic = true)
    (hheader : σ.header = some z') (hsame : Same z z') (hfree : z'.nFree = z.nFree)
    (hsound : ∀ taken L R, Sound cfg (s.slot zone) z taken L R →
      ∃ L' R', Sound cfg σ z' taken L' R') : Inv cfg (s.setSlot zone σ) := by
  rw [← setOp_self (s.setSlot zone σ) z.cpu]
  obtain ⟨_, L, R, hzone⟩ := h.zone zone z hz hmagic
  apply h.keep hz hmagic hheader hsame (hsound _ L R hzone)
  · rw [hfree]
  · intro zone' _
    rfl
  · intro kind zone' pc hop
    obtain ⟨y, hy, hy', hcpu, hworking⟩ := h.busy z.cpu kind zone' pc hop
    by_cases hne : zone' = zone
    · subst hne
      rw [hz] at hy
      cases hy
      rw [update_self]
      refine ⟨z', hheader, hsame.magic.trans hmagic, hsame.cpu, ?_⟩
      cases kind <;> simpa only [Working, hfree, hsame.zoneIndex] using hworking
    · rw [update_of_ne hne]
      exact ⟨y, hy, hy', hcpu, hworking⟩

theorem Inv.setSlgd (h : Inv cfg s)
    (hary : g.zoneAry = (s.slgd c).zoneAry) (hfree : g.freeZones = (s.slgd c).freeZones)
    (hflight : ∀ zone, g.flight zone = (s.slgd c).flight zone)
    (hbusy : ∀ kind zone pc, g.op = some (.work kind zone pc) →
      ∃ z, (s.slot zone).header = some z ∧ z.magic = true ∧ z.cpu = c ∧
        Working (s.slgd c) kind zone z) (hblocked : ∀ size ∈ g.blocked, cfg.Zoned size) :
    Inv cfg (s.setSlgd c g) := by
  have hslgd : ∀ c', c' ≠ c → (s.setSlgd c g).slgd c' = s.slgd c' := by
    intro c' hne
    exact update_of_ne hne g s.slgd
  have hslgd' : (s.setSlgd c g).slgd c = g := by
    simp [State.setSlgd]
  have hflight' : ∀ c' zone, ((s.setSlgd c g).slgd c').flight zone = (s.slgd c').flight zone := by
    intro c' zone
    by_cases hc : c' = c
    · subst hc
      rw [hslgd', hflight]
    · rw [hslgd c' hc]
  have hary' : ∀ c', ((s.setSlgd c g).slgd c').zoneAry = (s.slgd c').zoneAry := by
    intro c'
    by_cases hc : c' = c
    · subst hc
      rw [hslgd', hary]
    · rw [hslgd c' hc]
  have hfree' : ∀ c', ((s.setSlgd c g).slgd c').freeZones = (s.slgd c').freeZones := by
    intro c'
    by_cases hc : c' = c
    · subst hc
      rw [hslgd', hfree]
    · rw [hslgd c' hc]
  constructor
  · exact h.running
  · intro zone z hz hmagic
    rw [hflight']
    exact h.zone zone z hz hmagic
  · exact h.unused
  · intro c' i
    rw [hary']
    exact h.ary_nodup c' i
  · intro c' i zone
    rw [hary', hflight']
    exact h.mem_ary c' i zone
  · intro c'
    rw [hfree']
    exact h.free_nodup c'
  · intro c' zone
    rw [hfree']
    exact h.mem_free c' zone
  · intro c' kind zone pc hop
    by_cases hc : c' = c
    · subst hc
      rw [hslgd'] at hop
      obtain ⟨z, hz, hmagic, hcpu, hworking⟩ := hbusy kind zone pc hop
      refine ⟨z, hz, hmagic, hcpu, ?_⟩
      cases kind <;> simpa only [Working, hary'] using hworking
    · rw [hslgd c' hc] at hop ⊢
      exact h.busy c' kind zone pc hop
  · intro c' size hsize
    by_cases hc : c' = c
    · subst hc
      rw [hslgd'] at hsize
      exact hblocked size hsize
    · rw [hslgd c' hc] at hsize
      exact h.blocked c' size hsize

end Invariant

end DragonFly.Slab
