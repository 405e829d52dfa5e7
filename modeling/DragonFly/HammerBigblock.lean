import DragonFly.HammerBlockmap

/-!
# The state of one big-block

Every operation of the blockmap works on a single big-block.  `Bigblock.Sound`
relates the layer 2 entry and the reservation of a big-block to the extents in
it, and each change an operation makes keeps it.
-/

namespace DragonFly.Hammer

open Multiset

/-- A range of bytes handed out by the blockmap. -/
structure Extent where
  zoneOffset : ℕ
  bytes : ℕ
  deriving DecidableEq

namespace Extent

variable (extent : Extent)

def zone : ℕ :=
  hammerZoneDecode extent.zoneOffset

def block : ℕ :=
  bigblock extent.zoneOffset

def start : ℕ :=
  extent.zoneOffset % hammerLargeblockSize

def span : ℕ :=
  align16 extent.bytes

def stop : ℕ :=
  extent.start + extent.span

end Extent

/-- An extent reserved by the frontend, and whether it has been finalized. -/
structure Hold where
  extent : Extent
  finalized : Bool
  deriving DecidableEq

def usedBytes (extents : Multiset Extent) : ℕ :=
  (extents.map Extent.span).sum

/-- A big-block, the extents allocated in it and the reservations held on it.
`delayed` says that its last extent was freed and that the reservation this
put on the delay list has not been completed. -/
structure Bigblock where
  layer2 : BlockmapLayer2
  resv : Option HammerReserve
  allocated : Multiset Extent
  held : Multiset Hold
  delayed : Prop

namespace Bigblock

/-- A big-block that no zone can allocate from. -/
structure Unavailable (block : Bigblock) : Prop where
  zone : block.layer2.zone ≠ 0
  appendOff : block.layer2.appendOff = hammerLargeblockSize
  resv : block.resv = none
  allocated : block.allocated = 0

/-- A reservation against the rest of its big-block.  Next to those of the
holders and of the delay list it has `extra` references. -/
structure ResvSound (block : Bigblock) (extra : ℕ) (resv : HammerReserve) :
    Prop where
  layer2_le : block.layer2.appendOff ≤ resv.appendOff
  pos : 0 < resv.appendOff
  le : resv.appendOff ≤ hammerLargeblockSize
  zone : block.layer2.zone = 0 ∨ block.layer2.zone = resv.zone
  refs : resv.refs = block.held.card + extra + if resv.onDelay then 1 else 0
  refs_pos : 0 < resv.refs

variable {resv : HammerReserve} {extra offset : ℕ} {extent : Extent} {rest : Multiset Extent}

variable {block : Bigblock} {extra' : ℕ}

theorem ResvSound.congr {block' : Bigblock} (h : block.ResvSound extra resv)
    (hzone : block'.layer2.zone = block.layer2.zone)
    (happend : block'.layer2.appendOff = block.layer2.appendOff)
    (hholders : block'.held.card + extra' = block.held.card + extra) :
    block'.ResvSound extra' resv := by
  refine ⟨?_, h.pos, h.le, ?_, ?_, h.refs_pos⟩
  · rw [happend]
    exact h.layer2_le
  · rw [hzone]
    exact h.zone
  · rw [hholders]
    exact h.refs

structure Sound (block : Bigblock) (extra : ℕ) : Prop where
  appendOff_le : block.layer2.appendOff ≤ hammerLargeblockSize
  free : block.layer2.zone = 0 → block.layer2.bytesFree = (hammerLargeblockSize : ℕ) ∧
      block.layer2.appendOff = 0
  counted : block.layer2.bytesFree =
      hammerLargeblockSize - usedBytes block.allocated ∨ block.Unavailable
  allocated : ∀ extent ∈ block.allocated, 0 < extent.span ∧ block.layer2.zone = extent.zone ∧
      extent.stop ≤ block.layer2.appendOff
  resv : ∀ resv, block.resv = some resv → block.ResvSound extra resv
  held : ∀ hold ∈ block.held, 0 < hold.extent.span ∧
    ∃ resv, block.resv = some resv ∧ resv.zone = hold.extent.zone ∧
      hold.extent.stop ≤ resv.appendOff
  delayed : block.delayed → ∃ resv, block.resv = some resv ∧ resv.onDelay = true

theorem eq_zero_of_usedBytes_eq_zero (hpos : ∀ extent ∈ extents, 0 < extent.span)
    (h : usedBytes extents = 0) : extents = 0 := by
  apply eq_zero_of_forall_notMem
  intro extent hmem
  have hspan := sum_eq_zero_iff.mp h extent.span (mem_map_of_mem _ hmem)
  have hlt := hpos extent hmem
  omega

theorem usedBytes_cons (extent : Extent) (extents : Multiset Extent) :
    usedBytes (extent ::ₘ extents) = extent.span + usedBytes extents := by
  simp [usedBytes]

structure Room (block : Bigblock) (zone offset : ℕ) : Prop where
  owner : block.layer2.zone = 0 ∨ block.layer2.zone = zone
  layer2_le : block.layer2.appendOff ≤ offset
  resv : ∀ resv, block.resv = some resv → resv.zone = zone ∧ resv.appendOff ≤ offset

section

variable (h : block.Sound extra)
include h

theorem Sound.stop_le (hroom : block.Room zone offset) :
    (∀ extent ∈ block.allocated, extent.stop ≤ offset) ∧
      ∀ hold ∈ block.held, hold.extent.stop ≤ offset := by
  constructor
  · intro extent hmem
    exact (h.allocated extent hmem).2.2.trans hroom.layer2_le
  · intro hold hmem
    obtain ⟨-, resv, hresv, -, hstop⟩ := h.held hold hmem
    exact hstop.trans (hroom.resv resv hresv).2

theorem Sound.start_pos (hroom : block.Room zone offset)
    (hdelayed : block.delayed) : 0 < offset := by
  obtain ⟨resv, hresv, -⟩ := h.delayed hdelayed
  have hpos := (h.resv resv hresv).pos
  have hle := (hroom.resv resv hresv).2
  omega

theorem Sound.not_unavailable (hroom : block.Room zone offset)
    (hlt : offset < hammerLargeblockSize) :
    block.layer2.bytesFree = hammerLargeblockSize - usedBytes block.allocated := by
  rcases h.counted with hcount | hno
  · exact hcount
  · have hle := hroom.layer2_le
    rw [hno.appendOff] at hle
    omega

theorem Sound.allocated_eq_zero
    (hzone : block.layer2.zone = 0) : block.allocated = 0 := by
  apply eq_zero_of_usedBytes_eq_zero
  · intro extent hmem
    exact (h.allocated extent hmem).1
  · rcases h.counted with hcount | hno
    · have hfree := (h.free hzone).1
      omega
    · exact absurd hzone hno.zone

theorem Sound.held_eq_zero
    (hresv : block.resv = none) : block.held = 0 := by
  apply eq_zero_of_forall_notMem
  intro hold hmem
  obtain ⟨-, resv, hsome, -⟩ := h.held hold hmem
  rw [hresv] at hsome
  cases hsome

theorem Sound.of_no_resv
    (hresv : block.resv = none) : block.Sound extra' := by
  refine ⟨h.appendOff_le, h.free, h.counted, h.allocated, ?_, h.held, h.delayed⟩
  intro resv hsome
  rw [hresv] at hsome
  cases hsome

end

/-! ## Handing out an extent -/

def takeLayer2 (layer2 : BlockmapLayer2) (extent : Extent) (appendOff : ℕ) : BlockmapLayer2 :=
  { zone := extent.zone
    appendOff := appendOff
    bytesFree := layer2.bytesFree - extent.span }

/-- `hammer_blockmap_alloc`; a reservation gets the reference that the
allocation drops afterwards. -/
def alloc (block : Bigblock) (extent : Extent) : Bigblock :=
  { block with
    layer2 := takeLayer2 block.layer2 extent extent.stop
    resv := block.resv.map fun resv =>
      { resv with
        refs := resv.refs + 1
        appendOff := extent.stop
        layer2Free := false }
    allocated := extent ::ₘ block.allocated }

theorem Sound.alloc (h : block.Sound 0) (hroom : block.Room extent.zone extent.start)
    (hzone : extent.zone ≠ 0) (hspan : 0 < extent.span)
    (hstop : extent.stop ≤ hammerLargeblockSize) : (block.alloc extent).Sound 1 := by
  have hlt : extent.start < extent.stop := by
    unfold Extent.stop
    omega
  have hcount := h.not_unavailable hroom (hlt.trans_le hstop)
  obtain ⟨hallocated, hheld⟩ := h.stop_le hroom
  constructor
  · exact hstop
  · intro hzero
    exact absurd hzero hzone
  · left
    simp only [Bigblock.alloc, takeLayer2, usedBytes_cons, hcount]
    push_cast
    ring
  · intro other hmem
    rcases mem_cons.mp hmem with rfl | hmem
    · exact ⟨hspan, rfl, le_rfl⟩
    · refine ⟨(h.allocated other hmem).1, ?_, (hallocated other hmem).trans hlt.le⟩
      rcases hroom.owner with hfree | hown
      · rw [h.allocated_eq_zero hfree] at hmem
        exact absurd hmem (notMem_zero _)
      · rw [← (h.allocated other hmem).2.1]
        exact hown.symm
  · intro resv hresv
    obtain ⟨old, hold, rfl⟩ := Option.map_eq_some_iff.mp hresv
    have hsound := h.resv old hold
    refine ⟨le_rfl, by simp only; omega, hstop, ?_, ?_, Nat.succ_pos _⟩
    · exact Or.inr (hroom.resv old hold).1.symm
    · simp only [Bigblock.alloc, hsound.refs]
      omega
  · intro hold hmem
    obtain ⟨hpos, resv, hresv, hsame, -⟩ := h.held hold hmem
    refine ⟨hpos, _, congrArg (Option.map _) hresv, hsame, ?_⟩
    exact (hheld hold hmem).trans hlt.le
  · intro hdelayed
    obtain ⟨resv, hresv, hon⟩ := h.delayed hdelayed
    exact ⟨_, congrArg (Option.map _) hresv, hon⟩

def reserveResv (block : Bigblock) (extent : Extent) : HammerReserve :=
  match block.resv with
  | some resv =>
    { resv with
      refs := resv.refs + 1
      appendOff := extent.stop }
  | none =>
    { refs := 1
      zone := extent.zone
      appendOff := extent.stop
      layer2Free := block.layer2.bytesFree = (hammerLargeblockSize : ℕ)
      onDelay := false }

def reserve (block : Bigblock) (extent : Extent) : Bigblock :=
  { block with
    resv := some (block.reserveResv extent)
    held := ⟨extent, false⟩ ::ₘ block.held }

theorem Sound.reserveResv (h : block.Sound 0) (hroom : block.Room extent.zone extent.start) :
    (block.reserveResv extent).zone = extent.zone ∧
      (block.reserveResv extent).appendOff = extent.stop ∧
      (block.reserveResv extent).refs = block.held.card + 1 +
        (if (block.reserveResv extent).onDelay then 1 else 0) ∧ ∀ old, block.resv = some old →
        (block.reserveResv extent).onDelay = old.onDelay := by
  unfold Bigblock.reserveResv
  cases hold : block.resv with
  | none =>
    refine ⟨rfl, rfl, by simp [h.held_eq_zero hold], ?_⟩
    intro old hnone
    cases hnone
  | some old =>
    have hrefs := (h.resv old hold).refs
    refine ⟨(hroom.resv old hold).1, rfl, ?_, ?_⟩
    · simp only [hrefs]
      omega
    · intro other hother
      cases hother
      rfl

theorem Sound.reserve
    (h : block.Sound 0) (hroom : block.Room extent.zone extent.start) (hspan : 0 < extent.span)
    (hstop : extent.stop ≤ hammerLargeblockSize) : (block.reserve extent).Sound 0 := by
  have hlt : extent.start < extent.stop := by
    unfold Extent.stop
    omega
  have hcount := h.not_unavailable hroom (hlt.trans_le hstop)
  obtain ⟨-, hheld⟩ := h.stop_le hroom
  obtain ⟨hzone, happend, hrefs, hon⟩ := h.reserveResv hroom
  constructor
  · exact h.appendOff_le
  · exact h.free
  · exact Or.inl hcount
  · exact h.allocated
  · intro resv hresv
    cases hresv
    refine ⟨?_, by omega, by omega, ?_, ?_, by omega⟩
    · rw [happend]
      exact hroom.layer2_le.trans hlt.le
    · rw [hzone]
      exact hroom.owner
    · rw [hrefs]
      simp [Bigblock.reserve]
  · intro hold hmem
    rcases mem_cons.mp hmem with rfl | hmem
    · exact ⟨hspan, _, rfl, hzone, happend.ge⟩
    · obtain ⟨hpos, old, hold', hsame, -⟩ := h.held hold hmem
      refine ⟨hpos, _, rfl, ?_, ?_⟩
      · rw [hzone, ← hsame]
        exact (hroom.resv old hold').1.symm
      · rw [happend]
        exact (hheld hold hmem).trans hlt.le
  · intro hdelayed
    obtain ⟨old, hold, hold'⟩ := h.delayed hdelayed
    exact ⟨_, rfl, (hon old hold).trans hold'⟩

/-- Under a reservation the count of free bytes is exact. -/
theorem Sound.bytesFree_eq (h : block.Sound n) (hresv : block.resv = some resv) :
    block.layer2.bytesFree = hammerLargeblockSize - usedBytes block.allocated := by
  rcases h.counted with hcount | hno
  · exact hcount
  · rw [hno.resv] at hresv
    cases hresv

def finalize (block : Bigblock) (extent : Extent) (held : Multiset Hold) : Bigblock :=
  { block with
    layer2 := takeLayer2 block.layer2 extent
      (if block.layer2.appendOff < extent.stop then extent.stop
        else block.layer2.appendOff)
    resv := block.resv.map fun resv => { resv with layer2Free := false }
    allocated := extent ::ₘ block.allocated
    held := ⟨extent, true⟩ ::ₘ held }

theorem Sound.finalize {held : Multiset Hold} (h : block.Sound 0) (hzone : extent.zone ≠ 0)
    (hheld : block.held = ⟨extent, false⟩ ::ₘ held) : (block.finalize extent held).Sound 0 := by
  have hmem : (⟨extent, false⟩ : Hold) ∈ block.held := by
    rw [hheld]
    exact mem_cons_self _ _
  obtain ⟨hspan, resv, hresv, hsame, hstop⟩ := h.held _ hmem
  have hsound := h.resv resv hresv
  have hcount := h.bytesFree_eq hresv
  have howner : block.layer2.zone = 0 ∨ block.layer2.zone = extent.zone := by
    rw [← hsame]
    exact hsound.zone
  have happend : (block.finalize extent held).layer2.appendOff ≤ resv.appendOff := by
    have hle := hsound.layer2_le
    simp only [Bigblock.finalize, takeLayer2]
    split_ifs
    · exact hstop
    · exact hle
  have hgrow : block.layer2.appendOff ≤ (block.finalize extent held).layer2.appendOff ∧
        extent.stop ≤ (block.finalize extent held).layer2.appendOff := by
    simp only [Bigblock.finalize, takeLayer2]
    split_ifs <;> omega
  constructor
  · exact happend.trans hsound.le
  · intro hzero
    exact absurd hzero hzone
  · left
    simp only [Bigblock.finalize, takeLayer2, usedBytes_cons, hcount]
    push_cast
    ring
  · intro other hother
    rcases mem_cons.mp hother with rfl | hother
    · exact ⟨hspan, rfl, hgrow.2⟩
    · obtain ⟨hpos, hzone', hstop'⟩ := h.allocated other hother
      refine ⟨hpos, ?_, hstop'.trans hgrow.1⟩
      rcases howner with hfree | hown
      · rw [h.allocated_eq_zero hfree] at hother
        exact absurd hother (notMem_zero _)
      · rw [← hzone']
        exact hown.symm
  · intro resv' hresv'
    obtain ⟨old, hold, rfl⟩ := Option.map_eq_some_iff.mp hresv'
    rw [hresv] at hold
    cases hold
    refine ⟨happend, hsound.pos, hsound.le, Or.inr hsame.symm, ?_, hsound.refs_pos⟩
    have hrefs := hsound.refs
    rw [hheld] at hrefs
    simpa [Bigblock.finalize] using hrefs
  · intro hold hhold
    have hold' : 0 < hold.extent.span ∧ ∃ resv, block.resv = some resv ∧
        resv.zone = hold.extent.zone ∧
        hold.extent.stop ≤ resv.appendOff := by
      rcases mem_cons.mp hhold with rfl | hhold
      · exact h.held ⟨extent, false⟩ hmem
      · apply h.held
        rw [hheld]
        exact mem_cons_of_mem hhold
    obtain ⟨hpos, old, hold, hzone', hstop'⟩ := hold'
    exact ⟨hpos, _, congrArg (Option.map _) hold, hzone', hstop'⟩
  · intro hdelayed
    obtain ⟨old, hold, hon⟩ := h.delayed hdelayed
    exact ⟨_, congrArg (Option.map _) hold, hon⟩

/-! ## Releasing reservations -/

/-- What remains of a reservation when one of its references goes and `holders`
references other than that of the delay list stay. -/
def Released (holders : ℕ) (resv : HammerReserve) : Option HammerReserve → Prop
  | none => holders = 0 ∧ resv.onDelay = false
  | some resv' =>
    resv'.zone = resv.zone ∧ resv.appendOff ≤ resv'.appendOff ∧
      resv'.appendOff ≤ hammerLargeblockSize ∧
      resv'.refs = holders + (if resv'.onDelay then 1 else 0) ∧
      0 < resv'.refs ∧ (resv.onDelay = true → resv'.onDelay = true)

theorem Sound.release (h : block.Sound 1) (hresv : block.resv = some resv)
    (hreleased : Released block.held.card resv resv') : Sound { block with resv := resv' } 0 := by
  have hsound := h.resv resv hresv
  have hcount := h.bytesFree_eq hresv
  refine ⟨h.appendOff_le, h.free, Or.inl hcount, h.allocated, ?_, ?_, ?_⟩
  · intro new hnew
    simp only at hnew
    subst hnew
    obtain ⟨hzone, happend, hle, hrefs, hpos, -⟩ := hreleased
    refine ⟨hsound.layer2_le.trans happend, hsound.pos.trans_le happend, hle, ?_, hrefs, hpos⟩
    rw [hzone]
    exact hsound.zone
  · intro hold hmem
    obtain ⟨hpos, old, hold', hzone, hstop⟩ := h.held hold hmem
    rw [hresv] at hold'
    cases hold'
    cases resv' with
    | none =>
      have hempty := card_eq_zero.mp hreleased.1
      simp only [hempty] at hmem
      exact absurd hmem (notMem_zero _)
    | some new =>
      exact ⟨hpos, new, rfl, hreleased.1.trans hzone, hstop.trans hreleased.2.1⟩
  · intro hdelayed
    obtain ⟨old, hold', hon⟩ := h.delayed hdelayed
    rw [hresv] at hold'
    cases hold'
    cases resv' with
    | none =>
      rw [hreleased.2] at hon
      exact absurd hon Bool.false_ne_true
    | some new => exact ⟨new, rfl, hreleased.2.2.2.2.2 hon⟩

theorem Sound.drop_hold {held : Multiset Hold} (h : block.Sound 0)
    (hheld : block.held = hold ::ₘ held) : Sound { block with held := held } 1 := by
  refine ⟨h.appendOff_le, h.free, ?_, h.allocated, ?_, ?_, h.delayed⟩
  · rcases h.counted with hcount | hno
    · exact Or.inl hcount
    · exact Or.inr ⟨hno.zone, hno.appendOff, hno.resv, hno.allocated⟩
  · intro resv hresv
    refine (h.resv resv hresv).congr rfl rfl ?_
    rw [hheld, card_cons]
  · intro other hmem
    apply h.held
    rw [hheld]
    exact mem_cons_of_mem hmem

theorem Sound.drop_delay
    (h : block.Sound 0) (hresv : block.resv = some resv) (hon : resv.onDelay = true) :
    Sound
      { block with
        resv := some { resv with onDelay := false }
        delayed := False } 1 := by
  have hsound := h.resv resv hresv
  refine ⟨h.appendOff_le, h.free, ?_, h.allocated, ?_, ?_, False.elim⟩
  · exact Or.inl (h.bytesFree_eq hresv)
  · intro new hnew
    cases hnew
    have hrefs := hsound.refs
    rw [if_pos hon] at hrefs
    exact ⟨hsound.layer2_le, hsound.pos, hsound.le, hsound.zone, hrefs, hsound.refs_pos⟩
  · intro hold hmem
    obtain ⟨hpos, old, hold', hzone, hstop⟩ := h.held hold hmem
    rw [hresv] at hold'
    cases hold'
    exact ⟨hpos, _, rfl, hzone, hstop⟩

theorem Sound.delay (h : block.Sound extra) (delayed : Prop)
    (hdelayed : delayed → ∃ resv, block.resv = some resv ∧ resv.onDelay = true) :
    Sound { block with delayed := delayed } extra :=
  ⟨h.appendOff_le, h.free,
    h.counted.imp id fun hno =>
      ⟨hno.zone, hno.appendOff, hno.resv, hno.allocated⟩,
    h.allocated, fun resv hresv => (h.resv resv hresv).congr rfl rfl rfl,
    h.held, hdelayed⟩

/-! ## Freeing an extent -/

/-- The covering reservation of a big-block that became free. -/
def delayResv (block : Bigblock) (zone : ℕ) : HammerReserve :=
  hammerReserveSetdelay
    (match block.resv with
    | none =>
      { refs := 0
        zone := zone
        appendOff := hammerLargeblockSize
        layer2Free := true
        onDelay := false }
    | some resv => { resv with layer2Free := true })

theorem Sound.usedBytes_rest
    (h : block.Sound extra) (hallocated : block.allocated = extent ::ₘ rest) :
    block.layer2.bytesFree + extent.span = hammerLargeblockSize - usedBytes rest := by
  rcases h.counted with hcount | hno
  · rw [hcount, hallocated, usedBytes_cons]
    push_cast
    ring
  · rw [hno.allocated] at hallocated
    exact absurd hallocated.symm (cons_ne_zero)

theorem Sound.free_some (h : block.Sound 0) (hallocated : block.allocated = extent ::ₘ rest)
    (hbytes : block.layer2.bytesFree + extent.span ≠ (hammerLargeblockSize : ℕ)) :
    Sound
      { block with
        layer2 :=
          { block.layer2 with
            bytesFree := block.layer2.bytesFree + extent.span }
        allocated := rest } 0 ∧ rest ≠ 0 := by
  have hused := h.usedBytes_rest hallocated
  have hne : rest ≠ 0 := by
    rintro rfl
    apply hbytes
    rw [hused]
    simp [usedBytes]
  refine ⟨⟨h.appendOff_le, ?_, Or.inl hused, ?_, ?_, h.held, h.delayed⟩, hne⟩
  · intro hzone
    have hzero := h.allocated_eq_zero hzone
    rw [hallocated] at hzero
    exact absurd hzero (cons_ne_zero)
  · intro other hmem
    apply h.allocated
    rw [hallocated]
    exact mem_cons_of_mem hmem
  · intro resv hresv
    exact (h.resv resv hresv).congr rfl rfl rfl

theorem Sound.delayResv (h : block.Sound 0) (zone : ℕ) :
    (block.delayResv zone).onDelay = true ∧ 0 < (block.delayResv zone).appendOff ∧
      (block.delayResv zone).appendOff ≤ hammerLargeblockSize ∧
      (block.delayResv zone).refs = block.held.card + 1 ∧
      ∀ old, block.resv = some old → (block.delayResv zone).zone = old.zone ∧
          (block.delayResv zone).appendOff = old.appendOff := by
  unfold Bigblock.delayResv
  cases hresv : block.resv with
  | none =>
    simp [hammerReserveSetdelay, h.held_eq_zero hresv, hammerLargeblockSize]
  | some old =>
    have hsound := h.resv old hresv
    have hrefs := hsound.refs
    unfold hammerReserveSetdelay
    cases hon : old.onDelay with
    | true | false =>
      rw [hon] at hrefs
      simpa [hon] using ⟨hsound.pos, hsound.le, hrefs⟩

theorem Sound.free_last
    (h : block.Sound 0) (zone : ℕ) (hallocated : block.allocated = extent ::ₘ rest)
    (hbytes : block.layer2.bytesFree + extent.span = (hammerLargeblockSize : ℕ)) :
    Sound
      { block with
        layer2 := ⟨0, 0, block.layer2.bytesFree + extent.span⟩
        resv := some (block.delayResv zone)
        allocated := rest
        delayed := True } 0 := by
  obtain ⟨hon, hpos, hle, hrefs, hold⟩ := h.delayResv zone
  have hrest : rest = 0 := by
    apply eq_zero_of_usedBytes_eq_zero
    · intro other hmem
      refine (h.allocated other ?_).1
      rw [hallocated]
      exact mem_cons_of_mem hmem
    · have hused := h.usedBytes_rest hallocated
      omega
  subst hrest
  refine ⟨Nat.zero_le _, fun _ => ⟨hbytes, rfl⟩, Or.inl ?_, ?_, ?_, ?_, ?_⟩
  · simpa [usedBytes] using hbytes
  · intro other hmem
    exact absurd hmem (notMem_zero _)
  · intro resv hresv
    cases hresv
    refine ⟨Nat.zero_le _, hpos, hle, Or.inl rfl, ?_, by omega⟩
    rw [hrefs, if_pos hon]
  · intro hold' hmem
    obtain ⟨hpos', old, hsome, hzone, hstop⟩ := h.held hold' hmem
    obtain ⟨hsame, happend⟩ := hold old hsome
    refine ⟨hpos', _, rfl, hsame.trans hzone, ?_⟩
    rw [happend]
    exact hstop
  · intro _
    exact ⟨_, rfl, hon⟩

end Bigblock

end DragonFly.Hammer
