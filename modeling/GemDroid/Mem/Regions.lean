import GemDroid.Mem.Register
import GemDroid.Lib.Reach

/-! Accesses to registered regions.

After any run of registrations, an access goes to the region registered last among those that
cover its address, with the offset into the region, and an address that no region covers is
reported as unassigned. The code is right about this as long as no registration does one of
four things: cover a whole page that is assigned with another region offset, take the first
page of a leaf of descriptors that is not the leaf's first, split a page when no row of I/O
functions is left, or name a row that lacks a function. -/
namespace GemDroid.Mem
open Lib State Nat

variable {view : Nat → PageView} {index off addr len : Nat} {t : Target} {w : Width}

variable {s : State t}

/-! ### What should happen -/

section Spec
variable (t : Target)

def Region.covers (r : Region) (addr : Nat) : Bool :=
  decide (r.startAddr ≤ addr ∧ addr < r.startAddr + r.size)

/-- Where an access should go: to the region registered last, the head of the list, of those
that cover the address. -/
def expected (regions : List Region) (addr : Nat) : Nat × Nat :=
  match regions.find? fun r => r.covers addr with
  | none => (ioMemUnassigned / 8, addr)
  | some r => (r.physOffset / 8, (addr - r.startAddr + r.offset t) % 2 ^ 64)

variable {t}

def Width.bytes : Width → Nat
  | .byte => 1
  | .word => 2
  | .dword => 4

/-- The call is of the function of the row it should be, with the address it should have. -/
def Reaches (s : State t) (target : Nat × Nat) (dir : Dir) (w : Width) (call : Option State.Call) : Prop :=
  ∃ func, (s.ioMem target.1).func dir w = some func ∧ call = some ⟨func, (s.ioMem target.1).opaqueArg, target.2⟩

/-- The accesses go on from `addr` for `len` bytes, and each one calls what it should. -/
def Follows (s : State t) (target : Nat → Nat × Nat) (dir : Dir) : Nat → Nat → List State.Access → Prop
  | _, len, [] => len = 0
  | addr, len, .io a w call :: rest =>
    a = addr ∧ w.bytes ≤ len ∧ Reaches s (target addr) dir w call ∧
    Follows s target dir (addr + w.bytes) (len - w.bytes) rest
  | _, _, .ram _ _ :: _ => False

end Spec

open Region

/-! ### Runs -/

section Runs

/-- What a registration of an I/O region may ask. -/
structure Asked (s : State t) (r : Region) : Prop where
  aligned : r.startAddr % t.pageSize = 0
  nonempty : 0 < r.size
  inside : r.startAddr + r.size ≤ t.pages * t.pageSize
  word : r.regionOffset < 2 ^ 64
  handler : Handler s r.physOffset

/-- A registration under the condition for which the code is right. -/
structure Legal (s : State t) (r : Region) : Prop extends Asked s r where
  full : ∀ dir w, ((s.ioMem (r.physOffset / 8)).func dir w).isSome
  ready : RangeReady s (r.startAddr / t.pageSize) (r.pageCount t) r.size (r.offset t)

structure Config (t : Target) where
  state : State t
  regions : List Region

inductive Action
  | io (func : Dir → Width → Option Func) (opaqueArg : Opaque)
  | region (r : Region)

/-- The steps of a run. The functions of split pages are the emulator's own. -/
def Config.Next (c : Config t) : Action → Config t → Prop
  | .io func opaqueArg, c' => (∀ dir w, func dir w ≠ some .subpage) ∧
    c' = ⟨(c.state.cpuRegisterIoMemory func opaqueArg).1, c.regions⟩
  | .region r, c' => Legal c.state r ∧ c' = ⟨c.state.cpuRegisterPhysicalMemoryLog r, r :: c.regions⟩

def Config.Init (c : Config t) : Prop := c = ⟨State.init t, []⟩

def viewOf (t : Target) (regions : List Region) : Nat → PageView :=
  fun index off => expected t regions (index * t.pageSize + off)

theorem Inv.congr {view' : Nat → PageView} (h : Inv s view)
    (hv : ∀ index off, off < t.pageSize → view' index off = view index off) : Inv s view' := by
  constructor
  · exact h.zero
  · exact h.unassigned
  · intro index off ho
    rw [hv index off ho]
    exact h.own index off ho
  · intro index hi
    have hok := h.pages index hi
    cases hp : s.page index with
    | none =>
      rw [hp] at hok
      intro off ho
      rw [hv index off ho]
      exact hok off ho
    | some d =>
      rw [hp] at hok
      obtain hw | ⟨mmio, hs⟩ := hok
      · left
        exact ⟨hw.handler, fun off ho => by rw [hv index off ho]; exact hw.reaches off ho⟩
      · right
        refine ⟨mmio, hs.row, hs.offset, hs.allocated, fun off ho => ?_⟩
        rw [SlotOk, hv index off ho]
        exact hs.slots off ho
  · exact h.distinct

theorem inv_init : Inv (init t) (viewOf t []) := by
  have hnone : ∀ index, (init t).page index = none := by
    intro index
    show Option.map _ (Radix.find _ t.levels (Radix.empty _ t.levels)) = none
    rw [Radix.find_empty t.levels_spec.1]
    rfl
  constructor
  · exact ⟨rfl, rfl⟩
  · exact ⟨rfl, rfl⟩
  · intro index off _ _
    rfl
  · intro index _
    rw [hnone]
    exact fun off _ => rfl
  · intro i _ j _ d d' hd
    rw [hnone] at hd
    cases hd

theorem Inv.io (h : Inv s view) (func : Dir → Width → Option Func)
    (opaqueArg : Opaque) : Inv (s.cpuRegisterIoMemory func opaqueArg).1 view := by
  unfold cpuRegisterIoMemory
  cases hget : s.getFreeIoMemIdx with
  | none => exact h
  | some i =>
    have hused : s.ioMemUsed i = false := by
      have := List.find?_some hget
      simpa using this
    have hrows : KeepsRows s { s with
        ioMemUsed := fun j => if j = i then true else s.ioMemUsed j
        ioMem := fun j => if j = i then ⟨func, opaqueArg⟩ else s.ioMem j } := by
      intro j hj
      have hji : j ≠ i := by
        intro hji
        rw [hji, hused] at hj
        cases hj
      simp [hji, hj]
    have hframe : Frame s _ t.pages s.subpageCount :=
      ⟨hrows, fun _ _ _ => .inl rfl, fun _ _ _ => rfl, le_rfl⟩
    exact h.frame hframe h.spare_new

variable {r : Region} {regions : List Region}

theorem Region.pageCount_spec (t : Target) (h : 0 < r.size) : ∃ n, r.pageCount t = n + 1 ∧ n * t.pageSize < r.size ∧
    r.size ≤ (n + 1) * t.pageSize := by
  have hsize := t.pageSize_ge
  have hdiv := div_add_mod (r.size + t.pageSize - 1) t.pageSize
  have hmod := mod_lt (r.size + t.pageSize - 1) (show 0 < t.pageSize by omega)
  rw [mul_comm] at hdiv
  unfold pageCount
  cases hq : (r.size + t.pageSize - 1) / t.pageSize with
  | zero =>
    rw [hq] at hdiv
    omega
  | succ n =>
    rw [hq, add_one_mul] at hdiv
    refine ⟨n, rfl, by omega, ?_⟩
    rw [add_one_mul]
    omega

theorem rangeView_eq {j : Nat} (hstart : r.startAddr = index * t.pageSize) (ho : off < t.pageSize) :
    rangeView t (viewOf t regions) index r.size r.physOffset (r.offset t) j off = viewOf t (r :: regions) j off := by
  unfold rangeView viewOf expected
  by_cases hle : index ≤ j
  · obtain ⟨k, rfl⟩ := Nat.exists_eq_add_of_le hle
    have hk : index + k - index = k := by omega
    have hmul := add_mul index k t.pageSize
    rw [hk, List.find?_cons]
    by_cases hin : k * t.pageSize + off < r.size
    · have hc : r.covers ((index + k) * t.pageSize + off) = true := by
        simp only [covers, decide_eq_true_eq]
        omega
      rw [if_pos ⟨hle, hin⟩, hc]
      congr 2
      omega
    · have hc : r.covers ((index + k) * t.pageSize + off) = false := by
        simp only [covers, decide_eq_false_iff_not]
        omega
      rw [if_neg (by omega), hc]
  · have hmul : (j + 1) * t.pageSize ≤ index * t.pageSize := mul_le_mul_right _ (by omega)
    rw [Nat.add_one_mul] at hmul
    have hc : r.covers (j * t.pageSize + off) = false := by
      simp only [covers, decide_eq_false_iff_not]
      omega
    rw [if_neg (by omega), List.find?_cons, hc]

theorem Inv.region (h : Inv s (viewOf t regions)) (hl : Legal s r) :
    Inv (s.cpuRegisterPhysicalMemoryLog r) (viewOf t (r :: regions)) := by
  have hspace := t.pages_mul_le
  have hinside := hl.inside
  obtain ⟨n, hn, hlo, hhi⟩ := pageCount_spec t hl.nonempty
  have hready := hl.ready
  rw [hn] at hready
  have hstart : r.startAddr = r.startAddr / t.pageSize * t.pageSize := by
    have := div_add_mod r.startAddr t.pageSize
    rw [hl.aligned, add_zero, mul_comm] at this
    exact this.symm
  have hpages : r.startAddr / t.pageSize + (n + 1) ≤ t.pages := by
    have hlt : (r.startAddr / t.pageSize + n) * t.pageSize < t.pages * t.pageSize := by
      rw [add_mul, ← hstart]
      omega
    exact Nat.lt_of_mul_lt_mul_right hlt
  have hoff : r.offset t < 2 ^ 64 := by
    unfold offset
    refine lt_of_le_of_lt (div_mul_le_self _ _) ?_
    split
    · omega
    · exact hl.word
  have hun : r.physOffset = ioMemUnassigned → r.offset t = r.startAddr / t.pageSize * t.pageSize := by
    intro hp
    simp [offset, hp]
  have hsum : r.startAddr + r.size = r.startAddr / t.pageSize * t.pageSize + r.size := by omega
  obtain ⟨view, hinv, hview⟩ :=
    registered_pages hl.aligned n h hpages hlo hhi hsum ⟨hl.handler, hl.full⟩ hun hoff hready
  unfold cpuRegisterPhysicalMemoryLog
  rw [hn]
  nth_rewrite 2 [hstart]
  apply hinv.congr
  intro j off ho
  rw [hview j off ho, rangeView_eq hstart ho]

theorem inv_of_reach {c : Config t} (h : Reach Config.Init Config.Next c) : Inv c.state (viewOf t c.regions) := by
  apply h.invariant (I := fun c => Inv c.state (viewOf t c.regions))
  · intro c hc
    rw [hc]
    exact inv_init
  · intro c a c' hi hn
    cases a with
    | io func opaqueArg =>
      obtain ⟨-, rfl⟩ := hn
      exact hi.io func opaqueArg
    | region r =>
      obtain ⟨hl, rfl⟩ := hn
      exact hi.region hl

end Runs

/-! ### Accesses -/

section Accesses
variable {dir : Dir} {d : PhysPageDesc}

theorem ioMemCall_row {phys : Nat} (h : FullHandler s phys) :
    Reaches s (phys / 8, addr) dir w (s.ioMemCall dir w (phys / 8) addr) := by
  obtain ⟨func, hf⟩ := Option.isSome_iff_exists.mp (h.full dir w)
  refine ⟨func, hf, ?_⟩
  unfold ioMemCall
  rw [hf]
  cases func with
  | subpage => exact absurd hf (h.device dir w)
  | unassigned | notdirty | watch | device id => rfl

theorem Split.reaches {v : PageView} {mmio : Nat} (h : Split s v d mmio) (ho : off < t.pageSize) :
    Reaches s (v off) dir w (s.ioMemCall dir w (d.physOffset / 8) off) := by
  obtain ⟨i, hlt, hphys, hused, hrow⟩ := h.row
  have hidx : d.physOffset / 8 = i := by omega
  obtain ⟨hu, hslot⟩ := h.slots off ho
  obtain ⟨hfull, ro, hs, haddr⟩ := hslot dir w
  obtain ⟨func, hf⟩ := Option.isSome_iff_exists.mp hfull
  refine ⟨func, hf, ?_⟩
  rw [hidx]
  unfold ioMemCall
  rw [hrow]
  simp only [subpageRow]
  rw [mod_eq_of_lt ho, hs]
  simp only [hf, haddr]

theorem accessWidth_bytes (l addr1 : Nat) (h : 0 < l) :
    (accessWidth l addr1).2 = (accessWidth l addr1).1.bytes ∧ (accessWidth l addr1).2 ≤ l := by
  unfold accessWidth
  split
  next h4 => exact ⟨rfl, h4.1⟩
  next =>
    split
    next h2 => exact ⟨rfl, h2.1⟩
    next => exact ⟨rfl, h⟩

/-- The offset of a page whose accesses call functions. -/
structure IoOffset (t : Target) (pd : Nat) : Prop where
  small : pd < t.pageSize
  rom : ioMemRom < pd
  romd : isRomd pd = false

theorem IoOffset.isIo {pd : Nat} (h : IoOffset t pd) (dir : Dir) : isIo t pd dir = true := by
  have hrom := h.rom
  unfold State.isIo
  rw [mod_eq_of_lt h.small]
  cases dir with
  | read => simpa [h.romd] using hrom
  | write =>
    have hne : pd ≠ 0 := by omega
    simpa using hne

theorem rwAccess_io (s : State t) (dir : Dir) (p : Option PhysPageDesc) (hlen : 0 < len)
    (hp : s.page (addr / t.pageSize) = p) (hio : IoOffset t (pageOffset p)) :
    ∃ w : Width, w.bytes ≤ len ∧ s.rwAccess dir addr len =
      (.io addr w (s.ioMemCall dir w (pageOffset p / 8) (ioAddr t addr p)), w.bytes) := by
  have hnb := t.ioMemNbEntries_mul
  have hsmall := hio.small
  have hmod := mod_lt addr (show 0 < t.pageSize by omega)
  obtain ⟨hb, hle⟩ := accessWidth_bytes (min (t.pageSize - addr % t.pageSize) len) (ioAddr t addr p) (by omega)
  refine ⟨(accessWidth (min (t.pageSize - addr % t.pageSize) len) (ioAddr t addr p)).1, by omega, ?_⟩
  unfold rwAccess
  rw [show physPageFind t s.l1PhysMap (addr / t.pageSize) = p from hp]
  dsimp only
  rw [hio.isIo dir, if_pos rfl, mod_eq_of_lt (show pageOffset p / 8 < t.ioMemNbEntries by omega), hb]

theorem Handler.ioOffset {phys : Nat} (h : Handler s phys) : IoOffset t phys := by
  have hnot := h.not_ram
  rw [mod_eq_of_lt h.small] at hnot
  push Not at hnot
  exact ⟨h.small, hnot.1, by simpa using hnot.2⟩

theorem Inv.access (h : Inv s view) (hi : index < t.pages) (ho : off < t.pageSize) (hlen : 0 < len)
    (haddr : addr = index * t.pageSize + off) (dir : Dir) : ∃ (w : Width) (call : Option State.Call), w.bytes ≤ len ∧
      s.rwAccess dir addr len = (.io addr w call, w.bytes) ∧ Reaches s (view index off) dir w call := by
  have hdiv : addr / t.pageSize = index := by rw [haddr, page_div ho]
  have hmod : addr % t.pageSize = off := by rw [haddr, page_mod ho]
  have hok := h.pages index hi
  have hu := handler_unassigned h.unassigned
  cases hp : s.page index with
  | none =>
    rw [hp] at hok
    obtain ⟨w, hw, hr⟩ := rwAccess_io s dir none hlen (by rw [hdiv]; exact hp) hu.ioOffset
    refine ⟨w, _, hw, hr, ?_⟩
    rw [hok off ho, ← haddr]
    exact ioMemCall_row hu
  | some d =>
    rw [hp] at hok
    obtain hwhole | ⟨mmio, hs⟩ := hok
    · obtain ⟨w, hw, hr⟩ := rwAccess_io s dir (some d) hlen (by rw [hdiv]; exact hp) hwhole.handler.ioOffset
      refine ⟨w, _, hw, hr, ?_⟩
      rw [hwhole.reaches off ho, ← hmod]
      exact ioMemCall_row hwhole.handler
    have hio : IoOffset t d.physOffset := by
      obtain ⟨i, hlt, hphys, hused, hrow⟩ := hs.row
      have hnb := t.ioMemNbEntries_mul
      have hi0 : i ≠ 0 := by
        intro hi0
        rw [hi0, h.zero.1] at hrow
        have hnull := congrArg IoRow.opaqueArg hrow
        cases hnull
      constructor
      · omega
      · show 8 < d.physOffset
        omega
      · simp only [isRomd, decide_eq_false_iff_not]
        omega
    obtain ⟨w, hw, hr⟩ := rwAccess_io s dir (some d) hlen (by rw [hdiv]; exact hp) hio
    refine ⟨w, _, hw, hr, ?_⟩
    have haddr1 : ioAddr t addr (some d) = off := by
      have hlt := page_lt hi ho
      rw [ioAddr, hs.offset, hmod, add_zero, mod_eq_of_lt (by omega)]
    rw [haddr1]
    exact hs.reaches ho

theorem Inv.follows {target : Nat → Nat × Nat}
    (h : Inv s fun index off => target (index * t.pageSize + off)) (dir : Dir) (fuel : Nat) :
    ∀ addr len, len ≤ fuel → addr + len ≤ t.pages * t.pageSize →
      Follows s target dir addr len (s.rwLoop dir fuel addr len) := by
  induction fuel with
  | zero =>
    intro addr len hf _
    show len = 0
    omega
  | succ fuel ih =>
    intro addr len hf hspace
    have hsize := t.pageSize_ge
    rw [rwLoop]
    split
    next hlen => exact hlen
    next hlen =>
      have hdiv := div_add_mod addr t.pageSize
      rw [mul_comm] at hdiv
      have hindex : addr / t.pageSize < t.pages := by
        rw [div_lt_iff_lt_mul (by omega)]
        omega
      obtain ⟨w, call, hw, hr, hreach⟩ :=
        h.access hindex (mod_lt addr (by omega)) (pos_of_ne_zero hlen) hdiv.symm dir
      rw [hr]
      have hpos : 0 < w.bytes := by cases w <;> decide
      rw [hdiv] at hreach
      exact ⟨rfl, hw, hreach, ih _ _ (by omega) (by omega)⟩

end Accesses

/-- After any run, every access to I/O memory goes to the region registered last among those
that cover its address, and to the functions for unassigned memory if there is none. -/
theorem accesses_of_reach {t : Target} {c : Config t} (h : Reach Config.Init Config.Next c) (dir : Dir) (addr len : Nat)
    (hspace : addr + len ≤ t.pages * t.pageSize) :
    Follows c.state (expected t c.regions) dir addr len (c.state.cpuPhysicalMemoryRw dir addr len) :=
  (inv_of_reach h).follows dir len addr len (le_refl _) hspace

def arm : Target := ⟨10, 40, by decide, by decide, by decide⟩

def withDevice : State arm :=
  ((State.init arm).cpuRegisterIoMemory (fun _ _ => some (.device 0)) (.device 0)).1

theorem handler_withDevice : Handler withDevice 48 := by
  refine ⟨by decide, by decide, .inr (by decide), by decide, fun dir w => ?_⟩
  cases dir <;> cases w <;> decide

/-- A region of a page and a half, the second page split. -/
theorem accesses_split : Follows (withDevice.cpuRegisterPhysicalMemoryLog ⟨0, 1536, 48, 0⟩)
    (expected arm [⟨0, 1536, 48, 0⟩]) .write 1500 600
    ((withDevice.cpuRegisterPhysicalMemoryLog ⟨0, 1536, 48, 0⟩).cpuPhysicalMemoryRw .write 1500 600) := by
  have hnone : ∀ k < 2, withDevice.page (0 + k) = none := by decide +kernel
  have hready : RangeReady withDevice 0 2 1536 0 := by
    constructor
    · exact fun _ => rfl
    · intro k hk _ d hd
      rw [hnone k hk] at hd
      cases hd
    · exact fun _ => .inr ⟨7, by decide, by decide⟩
  have hlegal : Legal withDevice ⟨0, 1536, 48, 0⟩ :=
    ⟨⟨by decide, by decide, by decide, by decide, handler_withDevice⟩, fun dir w => by cases dir <;> cases w <;> decide, hready⟩
  have hdevice : Reach Config.Init Config.Next (⟨withDevice, []⟩ : Config arm) :=
    .step (a := .io (fun _ _ => some (.device 0)) (.device 0)) (.start rfl) ⟨by simp, rfl⟩
  have hregion : Reach Config.Init Config.Next
      (⟨withDevice.cpuRegisterPhysicalMemoryLog ⟨0, 1536, 48, 0⟩, [⟨0, 1536, 48, 0⟩]⟩ : Config arm) :=
    .step (a := .region ⟨0, 1536, 48, 0⟩) hdevice ⟨hlegal, rfl⟩
  exact accesses_of_reach hregion .write 1500 600 (by decide)

/-- A page registered again keeps its old region offset, and the pages of a leaf that is not
allocated at its first page report an address that is not theirs. -/
theorem accesses_stale : let first : Region := ⟨0, 1024, 48, 0⟩
    let again : Region := ⟨0, 1024, 48, 1024⟩
    let second : Region := ⟨1024, 1024, 48, 0⟩
    let s₁ := withDevice.cpuRegisterPhysicalMemoryLog first
    let s₂ := s₁.cpuRegisterPhysicalMemoryLog again
    let s₃ := withDevice.cpuRegisterPhysicalMemoryLog second
    (Asked withDevice first ∧ Asked s₁ again ∧
      ¬ Follows s₂ (expected arm [again, first]) .read 0 4 (s₂.cpuPhysicalMemoryRw .read 0 4)) ∧
    (Asked withDevice second ∧ ¬ Follows s₃ (expected arm [second]) .read 0 4 (s₃.cpuPhysicalMemoryRw .read 0 4)) := by
  intro first again second s₁ s₂ s₃
  have hh : Handler s₁ 48 := by
    refine ⟨by decide, by decide, .inr (by decide), by decide +kernel, fun dir w => ?_⟩
    cases dir <;> cases w <;> decide +kernel
  have h₂ : s₂.cpuPhysicalMemoryRw .read 0 4 = [.io 0 .dword (some ⟨.device 0, .device 0, 0⟩)] := by decide +kernel
  have h₃ : s₃.cpuPhysicalMemoryRw .read 0 4 = [.io 0 .dword (some ⟨.unassigned, .null, 1024⟩)] := by decide +kernel
  refine ⟨⟨⟨by decide, by decide, by decide, by decide, handler_withDevice⟩,
    ⟨by decide, by decide, by decide, by decide, hh⟩, ?_⟩,
    ⟨by decide, by decide, by decide, by decide, handler_withDevice⟩, ?_⟩
  · rw [h₂]
    intro ⟨_, _, ⟨func, _, hcall⟩, _⟩
    exact absurd (State.Call.mk.inj (Option.some.inj hcall)).2.2 (by decide +kernel)
  · rw [h₃]
    intro ⟨_, _, ⟨func, _, hcall⟩, _⟩
    exact absurd (State.Call.mk.inj (Option.some.inj hcall)).2.2 (by decide +kernel)

end GemDroid.Mem
