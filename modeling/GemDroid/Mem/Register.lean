import GemDroid.Mem.Views

/-! Registering a region.

One lemma for each of the ways a page can be registered, and from them what the loop does: the
bytes of the region go to its row, and all others where they went. -/
namespace GemDroid.Mem
open Lib Function List Nat

variable {index mmio phys regionOffset off i n : Nat} {t : Target}

variable {s s' : State t}

section Rows

/-- There is a row left for a page that has to be split. -/
def Free (s : State t) : Prop := ∃ i < t.ioMemNbEntries, s.ioMemUsed i = false

theorem Free.getFreeIoMemIdx (h : Free s) : ∃ i < t.ioMemNbEntries, s.getFreeIoMemIdx = some i ∧
    s.ioMemUsed i = false := by
  obtain ⟨i, hi, hused⟩ := h
  cases hf : s.getFreeIoMemIdx with
  | none =>
    rw [State.getFreeIoMemIdx, find?_eq_none] at hf
    have := hf i (mem_range.mpr hi)
    simp [hused] at this
  | some j =>
    have hj := find?_some hf
    have hm := mem_of_find?_eq_some hf
    exact ⟨j, mem_range.mp hm, rfl, by simpa using hj⟩

theorem subpageRegister_fields (s : State t) (mmio start last memory regionOffset : Nat) :
    (s.subpageRegister mmio start last memory regionOffset).l1PhysMap = s.l1PhysMap ∧
    (s.subpageRegister mmio start last memory regionOffset).ioMem = s.ioMem ∧
    (s.subpageRegister mmio start last memory regionOffset).ioMemUsed = s.ioMemUsed ∧
    (s.subpageRegister mmio start last memory regionOffset).subpageCount = s.subpageCount ∧
    ∀ i ≠ mmio, (s.subpageRegister mmio start last memory regionOffset).subpages i = s.subpages i := by
  unfold State.subpageRegister
  split
  · exact ⟨rfl, rfl, rfl, rfl, fun _ _ => rfl⟩
  · refine ⟨rfl, rfl, rfl, rfl, fun i hi => ?_⟩
    exact if_neg hi

/-- The entries of the bytes up to `last` are set, as far as the row has functions. -/
theorem subpageRegister_slot {last memory : Nat} {dir : Dir} {w : Width} (h : last < t.pageSize) :
    ((s.subpageRegister mmio 0 last memory regionOffset).subpages mmio).slot off dir w =
      if off ≤ last ∧ ((s.ioMem (memory / 8)).func dir w).isSome then
        some ⟨memory / 8, (s.ioMem (memory / 8)).opaqueArg, regionOffset⟩ else (s.subpages mmio).slot off dir w := by
  rw [State.subpageRegister, if_neg (by omega)]
  simp

/-- What `subpage_init` gives: a new row and a new `subpage_t`, whose bytes all go where the
page went. -/
structure Inited (s s' : State t) (i memory regionOffset : Nat) : Prop where
  fresh : i < t.ioMemNbEntries ∧ s.ioMemUsed i = false
  map : s'.l1PhysMap = s.l1PhysMap
  rows : KeepsRows s s'
  row : s'.ioMemUsed i = true ∧ s'.ioMem i = subpageRow s.subpageCount
  count : s'.subpageCount = s.subpageCount + 1
  subpages : ∀ j ≠ s.subpageCount, s'.subpages j = s.subpages j
  slots : s.ioMemUsed (memory / 8) = true → ∀ off < t.pageSize, ∀ dir w, ((s.ioMem (memory / 8)).func dir w).isSome →
    (s'.subpages s.subpageCount).slot off dir w = some ⟨memory / 8, (s.ioMem (memory / 8)).opaqueArg, regionOffset⟩

def State.withSubpage (s : State t) (base i : Nat) : State t :=
  { s with
    subpages := fun j => if j = s.subpageCount then ⟨base, fun _ _ _ => none⟩ else s.subpages j
    subpageCount := s.subpageCount + 1
    ioMemUsed := fun j => if j = i then true else s.ioMemUsed j
    ioMem := fun j => if j = i then subpageRow s.subpageCount else s.ioMem j }

theorem subpageInit_eq (h : s.getFreeIoMemIdx = some i) (base memory : Nat) : s.subpageInit base memory regionOffset =
      ((s.withSubpage base i).subpageRegister s.subpageCount 0 (t.pageSize - 1) memory regionOffset,
        s.subpageCount, i * 8 + 2) := by
  have hget : ({ s with
      subpages := fun j => if j = s.subpageCount then ⟨base, fun _ _ _ => none⟩ else s.subpages j
      subpageCount := s.subpageCount + 1 } : State t).getFreeIoMemIdx = some i := h
  have hsub : State.subwidth (fun _ _ => some Func.subpage) = 0 := by decide
  rw [State.subpageInit]
  simp only [State.cpuRegisterIoMemory, hget, hsub, add_zero]
  rfl

theorem withSubpage_rows (base : Nat) (h : s.ioMemUsed i = false) : KeepsRows s (s.withSubpage base i) := by
  intro j hj
  have hji : j ≠ i := by
    intro hji
    rw [hji, h] at hj
    cases hj
  simp [State.withSubpage, hji, hj]

theorem subpageInit_spec (h : Free s) (base memory regionOffset : Nat) : ∃ i s', Inited s s' i memory regionOffset ∧
    s.subpageInit base memory regionOffset = (s', s.subpageCount, i * 8 + 2) := by
  obtain ⟨i, hi, hget, hused⟩ := h.getFreeIoMemIdx
  have hrows := withSubpage_rows base hused
  obtain ⟨hmap, hmem, hus, hcount, hothers⟩ :=
    subpageRegister_fields (s.withSubpage base i) s.subpageCount 0 (t.pageSize - 1) memory regionOffset
  refine ⟨i, _, ?_, subpageInit_eq hget base memory⟩
  constructor
  · exact ⟨hi, hused⟩
  · exact hmap
  · intro j hj
    rw [hmem, hus]
    exact hrows j hj
  · rw [hmem, hus]
    simp [State.withSubpage]
  · exact hcount
  · intro j hj
    rw [hothers j hj]
    exact if_neg hj
  · intro hm off ho dir w hf
    rw [subpageRegister_slot (by omega), (hrows _ hm).2, if_pos ⟨by omega, hf⟩]

end Rows

open State

/-! ### One page -/

section Page
variable {view : Nat → PageView} {m : Nat} {d : PhysPageDesc}

/-- Where the bytes of a page go when the first `m` of them have become part of a region. -/
def covered (v : PageView) (m phys regionOffset : Nat) : PageView :=
  fun off => if off < m then (phys / 8, (off + regionOffset) % 2 ^ 64) else v off

section
variable (hi : index < t.pages) (hleaf : s.page index = none → index % l2Size = 0)
include hi hleaf

/-- The pages of a leaf that is allocated at its first page have their own addresses. -/
theorem alloc_pages {j : Nat} (hj : j < t.pages) : physPageFind t (physPageAlloc t s.l1PhysMap index) j = s.page j ∨
      (s.page j = none ∧ physPageFind t (physPageAlloc t s.l1PhysMap index) j =
        some ⟨ioMemUnassigned, j * t.pageSize⟩) := by
  by_cases h : j / l2Size = index / l2Size
  · rw [physPageFind_alloc_leaf h]
    cases hp : s.page j with
    | some d =>
      left
      rw [show physPageFind t s.l1PhysMap j = some d from hp]
      rfl
    | none =>
      right
      have hnone := (physPageFind_none_leaf h).mp hp
      have hidx : index + j % l2Size = j := by
        have h₁ := div_add_mod index l2Size
        have h₂ := div_add_mod j l2Size
        rw [hleaf hnone, add_zero] at h₁
        rw [h, h₁] at h₂
        exact h₂
      have hlt : j * t.pageSize < 2 ^ 64 := by
        have hsize := t.pageSize_ge
        exact page_lt hj (show 0 < t.pageSize by omega)
      refine ⟨rfl, ?_⟩
      rw [show physPageFind t s.l1PhysMap j = none from hp, hidx, mod_eq_of_lt hlt]
      rfl
  · left
    exact physPageFind_alloc_other hi hj h

theorem allocSet_frame (p : PhysPageDesc) :
    let s' := ({ s with l1PhysMap := physPageAlloc t s.l1PhysMap index } : State t).setPage index p
    Frame s s' index s.subpageCount ∧ s'.page index = some p := by
  intro s'
  have hself : physPageFind t (physPageAlloc t s.l1PhysMap index) index ≠ none := by
    rw [physPageFind_alloc_leaf rfl]
    simp
  constructor
  · constructor
    · exact fun i hused => ⟨hused, rfl⟩
    · intro j hj hne
      show physPageFind t (physPageSet t (physPageAlloc t s.l1PhysMap index) index p) j = _ ∨ _ ∧
        physPageFind t (physPageSet t (physPageAlloc t s.l1PhysMap index) index p) j = _
      rw [physPageFind_set_other hi hj hne]
      exact alloc_pages hi hleaf hj
    · exact fun i _ _ => rfl
    · exact le_rfl
  · show physPageFind t (physPageSet t (physPageAlloc t s.l1PhysMap index) index p) index = _
    rw [physPageFind_set_self]
    cases hp : physPageFind t (physPageAlloc t s.l1PhysMap index) index with
    | none => exact absurd hp hself
    | some d => rfl

end

theorem set_frame (hi : index < t.pages) (hd : s.page index = some d) (p : PhysPageDesc) (mmio : Nat) :
    Frame s (s.setPage index p) index mmio ∧ (s.setPage index p).page index = some p := by
  constructor
  · constructor
    · exact fun i hused => ⟨hused, rfl⟩
    · exact fun j hj hne => .inl (physPageFind_set_other hi hj hne)
    · exact fun i _ _ => rfl
    · exact le_rfl
  · show physPageFind t (physPageSet t s.l1PhysMap index p) index = _
    rw [physPageFind_set_self, show physPageFind t s.l1PhysMap index = some d from hd]
    rfl

theorem covered_own (h : Inv s view) (hh : FullHandler s phys) (hro : phys = ioMemUnassigned → regionOffset = index * t.pageSize)
    (hi : index < t.pages) : ∀ off < t.pageSize, (covered (view index) m phys regionOffset off).1 = 2 →
      (covered (view index) m phys regionOffset off).2 = index * t.pageSize + off := by
  intro off ho
  unfold covered
  split
  · intro hrow
    have hphys : phys = ioMemUnassigned := by
      obtain hr | hr := hh.row
      · exact hr
      · dsimp only at hrow
        omega
    rw [hro hphys, add_comm off, mod_eq_of_lt (page_lt hi ho)]
  · exact h.own index off ho

variable {origSize startAddr : Nat} {v : PageView}

theorem Frame.trans {s₁ : State t} (h : Frame s s₁ index mmio) (h' : Frame s₁ s' index mmio) :
    Frame s s' index mmio := by
  constructor
  · intro i hused
    obtain ⟨hu, hr⟩ := h.rows i hused
    obtain ⟨hu', hr'⟩ := h'.rows i hu
    exact ⟨hu', hr'.trans hr⟩
  · intro j hj hne
    obtain h₁ | ⟨h₁, h₁'⟩ := h.pages j hj hne
    · rw [← h₁]
      exact h'.pages j hj hne
    · obtain h₂ | ⟨h₂, -⟩ := h'.pages j hj hne
      · exact .inr ⟨h₁, h₂.trans h₁'⟩
      · rw [h₂] at h₁'
        cases h₁'
  · intro i hi hne
    rw [h'.subpages i (lt_of_lt_of_le hi h.count) hne, h.subpages i hi hne]
  · exact le_trans h.count h'.count

/-- The entries of the first `m` bytes are set, and the others are as they were. -/
theorem SlotOk.covered (hm : 0 < m) (hmp : m < t.pageSize)
    (hh : FullHandler s phys) (h : m ≤ off → SlotOk s v mmio off) :
    SlotOk (s.subpageRegister mmio 0 (m - 1) phys regionOffset) (covered v m phys regionOffset) mmio off := by
  obtain ⟨-, hmem, hus, -, -⟩ := subpageRegister_fields s mmio 0 (m - 1) phys regionOffset
  unfold SlotOk Mem.covered
  rw [hus, hmem]
  by_cases hlt : off < m
  · rw [if_pos hlt]
    refine ⟨hh.used, fun dir w => ⟨hh.full dir w, regionOffset, ?_, rfl⟩⟩
    rw [subpageRegister_slot (by omega), if_pos ⟨by omega, hh.full dir w⟩]
  rw [if_neg hlt]
  obtain ⟨hu, hslot⟩ := h (by omega)
  refine ⟨hu, fun dir w => ?_⟩
  rw [subpageRegister_slot (by omega), if_neg (by omega)]
  exact hslot dir w

/-- The `subpage_t` of a page gets its first `m` bytes, and the others go where they went. -/
theorem setSubpage_spec {row : Nat} (regionOffset : Nat) (hi : index < t.pages) (hd : s.page index = some d)
    (hrow : ∃ i < t.ioMemNbEntries, row = i * 8 + 2 ∧ s.ioMemUsed i = true ∧ s.ioMem i = subpageRow mmio)
    (hmmio : mmio < s.subpageCount) (hm : 0 < m) (hmp : m < t.pageSize) (hh : FullHandler s phys)
    (hslots : ∀ off < t.pageSize, m ≤ off → SlotOk s v mmio off) :
    let s' := (s.subpageRegister mmio 0 (m - 1) phys regionOffset).setPage index ⟨row, 0⟩
    Frame s s' index mmio ∧ s'.page index = some ⟨row, 0⟩ ∧ Split s' (covered v m phys regionOffset) ⟨row, 0⟩ mmio := by
  obtain ⟨hmap, hmem, hus, hcount, hothers⟩ := subpageRegister_fields s mmio 0 (m - 1) phys regionOffset
  have hslot : ∀ off < t.pageSize, SlotOk (s.subpageRegister mmio 0 (m - 1) phys regionOffset)
      (covered v m phys regionOffset) mmio off := fun off ho => .covered hm hmp hh (hslots off ho)
  generalize s.subpageRegister mmio 0 (m - 1) phys regionOffset = r at *
  have hd₂ : r.page index = some d := by
    rw [page, hmap]
    exact hd
  have hframe : Frame s r index mmio := by
    constructor
    · intro j hj
      rw [hmem, hus]
      exact ⟨hj, rfl⟩
    · intro j hj hne
      left
      rw [page, hmap]
    · exact fun j _ hne => hothers j hne
    · rw [hcount]
  obtain ⟨hset, hpage⟩ := set_frame hi hd₂ ⟨row, 0⟩ mmio
  rw [← hus, ← hmem] at hrow
  rw [← hcount] at hmmio
  exact ⟨hframe.trans hset, hpage, hrow, rfl, hmmio, hslot⟩

/-- A page is split: its first `m` bytes become part of the region, and the others go where
they went. -/
theorem splitPage_spec {orig origOffset : Nat} (regionOffset : Nat) (hi : index < t.pages) (hd : s.page index = some d)
    (hfree : Free s) (hm : 0 < m) (hmp : m < t.pageSize) (hh : FullHandler s phys) (horig : FullHandler s orig)
    (hv : ∀ off < t.pageSize, m ≤ off → v off = (orig / 8, (off + origOffset) % 2 ^ 64)) :
    ∃ p, Frame s (s.splitPage index 0 (m - 1) orig origOffset phys regionOffset) index s.subpageCount ∧
      (s.splitPage index 0 (m - 1) orig origOffset phys regionOffset).page index = some p ∧
      Split (s.splitPage index 0 (m - 1) orig origOffset phys regionOffset)
        (covered v m phys regionOffset) p s.subpageCount := by
  obtain ⟨i, s₁, hs₁, hinit⟩ := subpageInit_spec hfree (index * t.pageSize) orig origOffset
  have hd₁ : s₁.page index = some d := by
    rw [page, hs₁.map]
    exact hd
  have hframe : Frame s s₁ index s.subpageCount := by
    constructor
    · exact hs₁.rows
    · intro j hj hne
      left
      rw [page, hs₁.map]
    · exact fun j _ hne => hs₁.subpages j hne
    · rw [hs₁.count]
      omega
  have hslots : ∀ off < t.pageSize, m ≤ off → SlotOk s₁ v s.subpageCount off := by
    intro off ho hle
    obtain ⟨hused, hrow⟩ := hs₁.rows _ horig.used
    rw [SlotOk, hv off ho hle, hrow]
    refine ⟨hused, fun dir w => ⟨horig.full dir w, origOffset, ?_, rfl⟩⟩
    exact hs₁.slots horig.used off ho dir w (horig.full dir w)
  obtain ⟨hf, hpage, hsplit⟩ := setSubpage_spec regionOffset hi hd₁ ⟨i, hs₁.fresh.1, rfl, hs₁.row⟩
    (by rw [hs₁.count]; omega) hm hmp (hh.keep hs₁.rows) hslots
  rw [splitPage, hinit]
  exact ⟨_, hframe.trans hf, hpage, hsplit⟩

/-! ### One round -/

theorem checkSubpage_whole {addr : Nat} (hs : startAddr % t.pageSize = 0)
    (h : t.pageSize ≤ startAddr + origSize - addr) :
    checkSubpage t addr startAddr origSize = (0, t.pageSize - 1, false) := by
  simp [checkSubpage, hs, h]

theorem checkSubpage_part (hs : startAddr % t.pageSize = 0) (hm : 0 < m)
    (hmp : m < t.pageSize) (h : startAddr + origSize = index * t.pageSize + m) :
    checkSubpage t (index * t.pageSize) startAddr origSize = (0, m - 1, true) := by
  have hlast : (startAddr + origSize - 1) % t.pageSize = m - 1 := by
    rw [h, show index * t.pageSize + m - 1 = index * t.pageSize + (m - 1) by omega, page_mod (by omega)]
  have hnot : ¬ t.pageSize ≤ startAddr + origSize - index * t.pageSize := by omega
  have hpart : m - 1 < t.pageSize - 1 := by omega
  simp [checkSubpage, hs, hnot, hlast, hpart]

/-- A page that can be registered: the condition under which the code is right about it. -/
structure PageReady (s : State t) (index m regionOffset : Nat) : Prop where
  /-- A leaf is allocated at its first page. -/
  leaf : s.page index = none → index % l2Size = 0
  /-- A page that is assigned and is covered as a whole keeps its region offset. -/
  offset : t.pageSize ≤ m → ∀ d, s.page index = some d → d.physOffset ≠ ioMemUnassigned → d.regionOffset = regionOffset
  /-- There is a row for a page that has to be split. -/
  row : m < t.pageSize → (∃ d, s.page index = some d ∧ isSubpage d.physOffset = true) ∨ Free s

structure Registered (s s' : State t) (view : Nat → PageView) (index m phys regionOffset : Nat) : Prop where
  inv : Inv s' (update view index (covered (view index) m phys regionOffset))
  rows : KeepsRows s s'
  /-- A whole page takes no row. -/
  used : t.pageSize ≤ m → s'.ioMemUsed = s.ioMemUsed
  present : s'.page index ≠ none
  others : ∀ j < t.pages, j ≠ index → s'.page j = s.page j ∨
    (s.page j = none ∧ s'.page j = some ⟨ioMemUnassigned, j * t.pageSize⟩)

section
variable (h : Inv s view) (hi : index < t.pages) (hh : FullHandler s phys)
  (hro : phys = ioMemUnassigned → regionOffset = index * t.pageSize)
include h hi hh hro

theorem registered (hf : Frame s s' index mmio) (hspare : Spare s index mmio) (hd : s'.page index = some d)
    (hpage : Whole s' (covered (view index) m phys regionOffset) d ∨
      Split s' (covered (view index) m phys regionOffset) d mmio)
    (hused : t.pageSize ≤ m → s'.ioMemUsed = s.ioMemUsed) : Registered s s' view index m phys regionOffset where
  inv := h.update hi hf hspare hd hpage (covered_own h hh hro hi)
  rows := hf.rows
  used := hused
  present := by simp [hd]
  others := hf.pages

theorem registered_whole (hm : t.pageSize ≤ m)
    (hf : Frame s s' index mmio) (hspare : Spare s index mmio) (hused : s'.ioMemUsed = s.ioMemUsed)
    (hd : s'.page index = some ⟨phys, regionOffset⟩) : Registered s s' view index m phys regionOffset := by
  refine registered h hi hh hro hf hspare hd (.inl ⟨hh.keep hf.rows, fun off ho => ?_⟩) fun _ => hused
  rw [covered, if_pos (by omega)]

end

theorem Handler.not_ram (h : Handler s phys) : ¬ (phys % t.pageSize ≤ ioMemRom ∨ isRomd phys = true) := by
  have hflags := h.flags
  have hrow : 16 ≤ phys := by
    obtain hr | hr := h.row
    · rw [hr]
      decide
    · omega
  rw [mod_eq_of_lt h.small]
  simp only [isRomd, decide_eq_true_eq, ioMemRom]
  omega

section
variable (h : Inv s view) (hi : index < t.pages)
include h hi

theorem Inv.view_unassigned (hd : ∀ d, s.page index = some d → d.physOffset = ioMemUnassigned) :
    ∀ off < t.pageSize, view index off = (2, index * t.pageSize + off) := by
  intro off ho
  have hok := h.pages index hi
  cases hp : s.page index with
  | none =>
    rw [hp] at hok
    exact hok off ho
  | some d =>
    rw [hp] at hok
    obtain hw | ⟨id, hs⟩ := hok
    · have hrow : (view index off).1 = 2 := by
        rw [hw.reaches off ho, hd d hp]
        rfl
      exact Prod.ext hrow (h.own index off ho hrow)
    · have := hs.isSubpage
      rw [hd d hp] at this
      exact absurd this (by decide)

section
variable (hs : startAddr % t.pageSize = 0) (hm : 0 < m)
  (hsum : startAddr + origSize = index * t.pageSize + m) (hh : FullHandler s phys)
  (hro : phys = ioMemUnassigned → regionOffset = index * t.pageSize)
  (hready : PageReady s index m regionOffset)
include hs hm hsum hh hro hready

theorem registered_unassigned (hd : ∀ d, s.page index = some d → d.physOffset = ioMemUnassigned) :
    Registered s (s.registerUnassigned (index * t.pageSize) startAddr origSize phys regionOffset)
      view index m phys regionOffset := by
  have hidx := t.page_index index
  obtain ⟨hf, hp⟩ := allocSet_frame hi hready.leaf ⟨phys, regionOffset⟩
  unfold registerUnassigned
  rw [hidx]
  by_cases hw : t.pageSize ≤ m
  · rw [checkSubpage_whole hs (by omega)]
    dsimp only
    rw [if_neg hh.not_ram, if_neg (by simp)]
    exact registered_whole h hi hh hro hw hf h.spare_new rfl hp
  rw [checkSubpage_part hs hm (by omega) hsum]
  dsimp only
  rw [if_neg hh.not_ram, if_pos rfl]
  have hfree : Free s := by
    obtain ⟨d, hd', hsub⟩ | hfree := hready.row (by omega)
    · rw [hd d hd'] at hsub
      exact absurd hsub (by decide)
    · exact hfree
  have hv : ∀ off < t.pageSize, m ≤ off → view index off =
      (ioMemUnassigned / 8, (off + index * t.pageSize) % 2 ^ 64) := by
    intro off ho _
    rw [h.view_unassigned hi hd off ho, add_comm off, mod_eq_of_lt (page_lt hi ho)]
    rfl
  obtain ⟨p, hf', hp', hsplit⟩ := splitPage_spec regionOffset hi hp hfree hm (by omega)
    (hh.keep hf.rows) (handler_unassigned (hf.rows.row h.unassigned)) hv
  exact registered h hi hh hro (hf.trans hf') h.spare_new hp' (.inr hsplit) (by omega)

theorem registered_assigned (hd : s.page index = some d) (hassigned : d.physOffset ≠ ioMemUnassigned) :
    Registered s (s.registerAssigned d (index * t.pageSize) startAddr origSize phys regionOffset)
      view index m phys regionOffset := by
  have hidx := t.page_index index
  have hok := h.pages index hi
  rw [hd] at hok
  unfold registerAssigned
  rw [hidx]
  by_cases hw : t.pageSize ≤ m
  · rw [checkSubpage_whole hs (by omega)]
    dsimp only
    rw [if_neg (by simp), hready.offset hw d hd hassigned]
    obtain ⟨hf, hp⟩ := set_frame hi hd ⟨phys, regionOffset⟩ s.subpageCount
    exact registered_whole h hi hh hro hw hf h.spare_new rfl hp
  rw [checkSubpage_part hs hm (by omega) hsum]
  dsimp only
  rw [if_pos rfl]
  obtain hwhole | ⟨mmio, hsp⟩ := hok
  · rw [hwhole.not_subpage, if_pos (by simp)]
    have hfree : Free s := by
      obtain ⟨d', hd', hsub⟩ | hfree := hready.row (by omega)
      · rw [hd] at hd'
        cases hd'
        rw [hwhole.not_subpage] at hsub
        cases hsub
      · exact hfree
    obtain ⟨p, hf', hp', hsplit⟩ := splitPage_spec regionOffset hi hd hfree hm (by omega) hh
      hwhole.handler fun off ho _ => hwhole.reaches off ho
    exact registered h hi hh hro hf' h.spare_new hp' (.inr hsplit) (by omega)
  · rw [hsp.isSubpage, if_neg (by simp), hsp.subpageOf]
    have hspare := h.spare_own hi hd hsp.isSubpage
    rw [hsp.subpageOf] at hspare
    obtain ⟨hf', hp', hsplit⟩ := setSubpage_spec regionOffset hi hd hsp.row hsp.allocated hm (by omega)
      hh fun off ho _ => hsp.slots off ho
    exact registered h hi hh hro hf' hspare hp' (.inr hsplit) (by omega)

theorem registered_page : Registered s (s.registerPage (index * t.pageSize) startAddr origSize phys regionOffset)
      view index m phys regionOffset := by
  have hidx := t.page_index index
  unfold registerPage
  rw [hidx]
  cases hp : s.page index with
  | none =>
    rw [show physPageFind t s.l1PhysMap index = none from hp]
    exact registered_unassigned h hi hs hm hsum hh hro hready (by simp [hp])
  | some d =>
    rw [show physPageFind t s.l1PhysMap index = some d from hp]
    dsimp only
    by_cases hd : d.physOffset = ioMemUnassigned
    · rw [if_neg (by simp [hd])]
      apply registered_unassigned h hi hs hm hsum hh hro hready
      intro d' hd'
      rw [hp] at hd'
      cases hd'
      exact hd
    · rw [if_pos hd]
      exact registered_assigned h hi hs hm hsum hh hro hready hp hd

end

end

/-! ### The loop -/

theorem Handler.offsetAfter (h : Handler s phys) (addr startAddr origSize : Nat) :
    s.offsetAfter addr startAddr origSize phys = phys := by
  have hnext : nextOffset t phys = phys := by
    rw [nextOffset, if_neg h.not_ram]
  unfold State.offsetAfter
  rw [hnext]
  exact ite_self _

structure RangeReady (s : State t) (index n m regionOffset : Nat) : Prop where
  leaf : s.page index = none → index % l2Size = 0
  offset : ∀ k < n, (k + 1) * t.pageSize ≤ m → ∀ d, s.page (index + k) = some d →
    d.physOffset ≠ ioMemUnassigned → d.regionOffset = (regionOffset + k * t.pageSize) % 2 ^ 64
  row : m < n * t.pageSize → (∃ d, s.page (index + (n - 1)) = some d ∧ isSubpage d.physOffset = true) ∨ Free s

theorem RangeReady.page (h : RangeReady s index (n + 1) m regionOffset) (hro : regionOffset < 2 ^ 64)
    (hm : n * t.pageSize < m) : PageReady s index m regionOffset := by
  constructor
  · exact h.leaf
  · intro hle d hd hassigned
    have := h.offset 0 (by omega) (by omega) d hd hassigned
    rwa [zero_mul, add_zero, mod_eq_of_lt hro] at this
  · intro hlt
    have hn : n = 0 := by
      cases n with
      | zero => rfl
      | succ n =>
        rw [succ_mul] at hm
        omega
    subst hn
    exact h.row (by omega)

theorem RangeReady.next (h : RangeReady s index (n + 2) m regionOffset) (hi : index + (n + 2) ≤ t.pages)
    (hm : (n + 1) * t.pageSize < m) (hr : Registered s s' view index m phys regionOffset) :
    RangeReady s' (index + 1) (n + 1) (m - t.pageSize) ((regionOffset + t.pageSize) % 2 ^ 64) := by
  rw [succ_mul] at hm
  constructor
  · intro hnone
    by_contra hne
    have hleaf : (index + 1) / l2Size = index / l2Size := by
      unfold l2Size l2Bits at hne ⊢
      omega
    exact hr.present ((physPageFind_none_leaf hleaf).mp hnone)
  · intro k hk hle d hd hassigned
    obtain hsame | ⟨-, hnew⟩ := hr.others (index + 1 + k) (by omega) (by omega)
    · rw [hsame, show index + 1 + k = index + (k + 1) by omega] at hd
      have hle' : (k + 1 + 1) * t.pageSize ≤ m := by
        rw [succ_mul (k + 1)]
        omega
      rw [h.offset (k + 1) (by omega) hle' d hd hassigned, mod_add_mod, succ_mul]
      congr 1
      omega
    · rw [hnew] at hd
      cases hd
      exact absurd rfl hassigned
  · intro hlt
    have hlt' : m < (n + 2) * t.pageSize := by
      rw [succ_mul (n + 1)]
      omega
    obtain ⟨d, hd, hsub⟩ | ⟨i, hi', hfree⟩ := h.row hlt'
    · left
      rw [show index + (n + 2 - 1) = index + 1 + (n + 1 - 1) by omega] at hd
      obtain hsame | ⟨hnone, -⟩ := hr.others (index + 1 + (n + 1 - 1)) (by omega) (by omega)
      · exact ⟨d, hsame.trans hd, hsub⟩
      · rw [hnone] at hd
        cases hd
    · right
      exact ⟨i, hi', by rw [hr.used (by omega)]; exact hfree⟩

def rangeView (t : Target) (view : Nat → PageView) (index m phys regionOffset : Nat) : Nat → PageView :=
  fun j off => if index ≤ j ∧ (j - index) * t.pageSize + off < m then
    (phys / 8, ((j - index) * t.pageSize + off + regionOffset) % 2 ^ 64) else view j off

theorem registered_pages (hs : startAddr % t.pageSize = 0) (n : Nat) :
    ∀ {s : State t} {view : Nat → PageView} {index m regionOffset : Nat}, Inv s view → index + (n + 1) ≤ t.pages →
      n * t.pageSize < m → m ≤ (n + 1) * t.pageSize → startAddr + origSize = index * t.pageSize + m →
      FullHandler s phys → (phys = ioMemUnassigned → regionOffset = index * t.pageSize) → regionOffset < 2 ^ 64 →
      RangeReady s index (n + 1) m regionOffset →
      ∃ view', Inv (registerPages startAddr origSize (n + 1) s (index * t.pageSize) phys regionOffset) view' ∧
        ∀ j off, off < t.pageSize → view' j off = rangeView t view index m phys regionOffset j off := by
  induction n with
  | zero =>
    intro s view index m regionOffset h hi hm hmn hsum hh hro hlt hready
    have hr := registered_page h (by omega) hs (by omega) hsum hh hro (hready.page hlt hm)
    refine ⟨_, hr.inv, fun j off ho => ?_⟩
    unfold rangeView
    by_cases hj : j = index
    · subst hj
      rw [update_self, covered]
      simp
    · rw [update_of_ne hj, if_neg]
      intro ⟨hle, hlt'⟩
      have : 1 * t.pageSize ≤ (j - index) * t.pageSize := Nat.mul_le_mul_right _ (by omega)
      omega
  | succ n ih =>
    intro s view index m regionOffset h hi hm hmn hsum hh hro hlt hready
    have hmul := Nat.add_one_mul n t.pageSize
    have hmul' := Nat.add_one_mul (n + 1) t.pageSize
    have hmi := Nat.add_one_mul index t.pageSize
    have hr := registered_page h (by omega) hs (by omega) hsum hh hro (hready.page hlt hm)
    have hready' := hready.next hi hm hr
    have hro' : phys = ioMemUnassigned → (regionOffset + t.pageSize) % 2 ^ 64 = (index + 1) * t.pageSize := by
      intro hp
      have hlt' : (index + 1) * t.pageSize < 2 ^ 64 := by
        have := page_lt (show index + 1 < t.pages by omega) (show 0 < t.pageSize by omega)
        omega
      rw [hro hp, ← hmi, Nat.mod_eq_of_lt hlt']
    obtain ⟨view', hinv, hview⟩ := ih hr.inv (by omega) (show n * t.pageSize < m - t.pageSize by omega)
      (by omega) (by omega) (hh.keep hr.rows) hro' (Nat.mod_lt _ (by decide)) hready'
    refine ⟨view', ?_, ?_⟩
    · rw [registerPages, hh.offsetAfter, ← hmi]
      exact hinv
    · intro j off ho
      rw [hview j off ho]
      unfold rangeView
      by_cases hj : index + 1 ≤ j
      · obtain ⟨k, rfl⟩ := Nat.exists_eq_add_of_le hj
        have hk : index + 1 + k - index = k + 1 := by omega
        have hk' : index + 1 + k - (index + 1) = k := by omega
        have hmk := Nat.add_one_mul k t.pageSize
        rw [hk, hk', update_of_ne (by omega)]
        by_cases hin : k * t.pageSize + off < m - t.pageSize
        · rw [if_pos ⟨hj, hin⟩, if_pos ⟨by omega, by omega⟩, Nat.add_mod_mod]
          congr 2
          omega
        · rw [if_neg (by omega), if_neg (by omega)]
      · rw [if_neg (by omega)]
        by_cases hj' : j = index
        · subst hj'
          rw [update_self, covered]
          simp
        · rw [update_of_ne hj', if_neg (by omega)]

end Page

end GemDroid.Mem
