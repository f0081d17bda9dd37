import GemDroid.Mem.PhysTable

/-! What the tables say about each byte of memory.

A *view* gives for each page and each byte of it a row of I/O functions and the address it is
called with. `Inv` ties the tables to a view: a page is either whole, and its descriptor says
where all its bytes go, or split, and its `subpage_t` says it for each byte. Split pages have
different `subpage_t`. -/
namespace GemDroid.Mem
open Lib Function Nat

variable {index off j : Nat}

section Sizes
variable (t : Target)

theorem Target.pageSize_ge : 64 ≤ t.pageSize := by
  have h : 2 ^ 6 ≤ 2 ^ t.pageBits := Nat.pow_le_pow_right (by decide) t.room
  exact h

theorem Target.page_index (index : Nat) : index * t.pageSize / t.pageSize = index :=
  Nat.mul_div_cancel _ (Nat.zero_lt_of_lt t.pageSize_ge)

theorem Target.ioMemNbEntries_mul : t.ioMemNbEntries * 8 = t.pageSize := by
  have h := t.room
  show 2 ^ (t.pageBits - 3) * 2 ^ 3 = 2 ^ t.pageBits
  rw [← pow_add]
  congr 1
  omega

theorem Target.pages_mul_le : t.pages * t.pageSize ≤ 2 ^ 64 := by
  have h := t.wide
  have hle : 2 ^ t.addrSpaceBits ≤ 2 ^ 64 := Nat.pow_le_pow_right (by decide) t.word
  rw [Target.pages, Target.pageSize, ← pow_add]
  rwa [show t.addrSpaceBits - t.pageBits + t.pageBits = t.addrSpaceBits by omega]

variable {t}

theorem page_div (h : off < t.pageSize) : (index * t.pageSize + off) / t.pageSize = index := by
  rw [mul_comm, mul_add_div (by omega), div_eq_of_lt h, add_zero]

theorem page_mod (h : off < t.pageSize) : (index * t.pageSize + off) % t.pageSize = off := by
  rw [mul_comm, mul_add_mod, mod_eq_of_lt h]

theorem page_lt (h : index < t.pages) (ho : off < t.pageSize) : index * t.pageSize + off < 2 ^ 64 := by
  have h₁ : (index + 1) * t.pageSize ≤ t.pages * t.pageSize := mul_le_mul_right _ h
  have h₂ := t.pages_mul_le
  rw [succ_mul] at h₁
  omega

end Sizes

/-- Where the bytes of a page go: a row of I/O functions, and the address. -/
abbrev PageView := Nat → Nat × Nat

section View
variable {t : Target}

/-- The offset of an I/O region: a row that is in use and is no split page's. -/
structure Handler (s : State t) (physOffset : Nat) : Prop where
  small : physOffset < t.pageSize
  flags : physOffset % 4 = 0
  row : physOffset = ioMemUnassigned ∨ 3 ≤ physOffset / 8
  used : s.ioMemUsed (physOffset / 8) = true
  device : ∀ dir w, (s.ioMem (physOffset / 8)).func dir w ≠ some .subpage

/-- A row with functions of all sizes. Where one is missing, a split page keeps that of the row it
had. -/
structure FullHandler (s : State t) (physOffset : Nat) : Prop extends Handler s physOffset where
  full : ∀ dir w, ((s.ioMem (physOffset / 8)).func dir w).isSome

def subpageRow (mmio : Nat) : IoRow := ⟨fun _ _ => some .subpage, .subpage mmio⟩

/-- The descriptor says where all bytes of the page go. -/
structure Whole (s : State t) (v : PageView) (d : PhysPageDesc) : Prop where
  handler : FullHandler s d.physOffset
  reaches : ∀ off < t.pageSize, v off = (d.physOffset / 8, (off + d.regionOffset) % 2 ^ 64)

/-- The byte's entries are those of the row the view gives. -/
def SlotOk (s : State t) (v : PageView) (mmio off : Nat) : Prop :=
  s.ioMemUsed (v off).1 = true ∧ ∀ dir w, ((s.ioMem (v off).1).func dir w).isSome ∧
    ∃ regionOffset, (s.subpages mmio).slot off dir w =
      some ⟨(v off).1, (s.ioMem (v off).1).opaqueArg, regionOffset⟩ ∧ (off + regionOffset) % 2 ^ 64 = (v off).2

structure Split (s : State t) (v : PageView) (d : PhysPageDesc) (mmio : Nat) : Prop where
  row : ∃ i < t.ioMemNbEntries, d.physOffset = i * 8 + 2 ∧ s.ioMemUsed i = true ∧ s.ioMem i = subpageRow mmio
  offset : d.regionOffset = 0
  allocated : mmio < s.subpageCount
  slots : ∀ off < t.pageSize, SlotOk s v mmio off

/-- What is known of a page. One that has no descriptor is unassigned. -/
def PageOk (s : State t) (v : PageView) (index : Nat) : Option PhysPageDesc → Prop
  | none => ∀ off < t.pageSize, v off = (2, index * t.pageSize + off)
  | some d => Whole s v d ∨ ∃ mmio, Split s v d mmio

abbrev State.page (s : State t) (index : Nat) : Option PhysPageDesc := physPageFind t s.l1PhysMap index

structure Inv (s : State t) (v : Nat → PageView) : Prop where
  zero : s.ioMem 0 = ⟨fun _ _ => none, .null⟩ ∧ s.ioMemUsed 0 = true
  unassigned : s.ioMem 2 = ⟨fun _ _ => some .unassigned, .null⟩ ∧ s.ioMemUsed 2 = true
  own : ∀ index off, off < t.pageSize → (v index off).1 = 2 → (v index off).2 = index * t.pageSize + off
  pages : ∀ index < t.pages, PageOk s (v index) index (s.page index)
  distinct : ∀ i < t.pages, ∀ j < t.pages, ∀ d d', s.page i = some d → s.page j = some d' →
    isSubpage d.physOffset = true → isSubpage d'.physOffset = true →
    s.subpageOf d.physOffset = s.subpageOf d'.physOffset → i = j

variable {s s' : State t} {v v' : PageView} {d : PhysPageDesc} {mmio phys : Nat}

theorem Handler.not_subpage (h : Handler s phys) : isSubpage phys = false := by
  have := h.flags
  simp only [isSubpage, decide_eq_false_iff_not]
  omega

theorem Split.isSubpage (h : Split s v d mmio) : isSubpage d.physOffset = true := by
  obtain ⟨i, -, hi, -⟩ := h.row
  simp only [Mem.isSubpage, decide_eq_true_eq]
  omega

theorem Split.subpageOf (h : Split s v d mmio) : s.subpageOf d.physOffset = mmio := by
  obtain ⟨i, hlt, hi, -, hrow⟩ := h.row
  have hnb := t.ioMemNbEntries_mul
  have hidx : d.physOffset % t.pageSize / 8 = i := by
    rw [mod_eq_of_lt (by omega)]
    omega
  rw [State.subpageOf, hidx, hrow]
  rfl

theorem Whole.not_subpage (h : Whole s v d) : Mem.isSubpage d.physOffset = false := h.handler.not_subpage

def KeepsRows (s s' : State t) : Prop := ∀ i, s.ioMemUsed i = true → s'.ioMemUsed i = true ∧ s'.ioMem i = s.ioMem i

theorem KeepsRows.row {i : Nat} {r : IoRow} (hk : KeepsRows s s') (h : s.ioMem i = r ∧ s.ioMemUsed i = true) :
    s'.ioMem i = r ∧ s'.ioMemUsed i = true :=
  ⟨(hk i h.2).2.trans h.1, (hk i h.2).1⟩

theorem Handler.keep (h : Handler s phys) (hk : KeepsRows s s') : Handler s' phys := by
  obtain ⟨hused, hrow⟩ := hk _ h.used
  exact ⟨h.small, h.flags, h.row, hused, by rw [hrow]; exact h.device⟩

theorem FullHandler.keep (h : FullHandler s phys) (hk : KeepsRows s s') : FullHandler s' phys := by
  obtain ⟨-, hrow⟩ := hk _ h.used
  exact ⟨h.toHandler.keep hk, by rw [hrow]; exact h.full⟩

theorem Whole.keep (h : Whole s v d) (hk : KeepsRows s s') : Whole s' v d :=
  ⟨h.handler.keep hk, h.reaches⟩

theorem SlotOk.keep (h : SlotOk s v mmio off) (hk : KeepsRows s s')
    (hs : (s'.subpages mmio).slot off = (s.subpages mmio).slot off) : SlotOk s' v mmio off := by
  obtain ⟨hused, hrow⟩ := hk _ h.1
  rw [SlotOk, hrow, hs]
  exact ⟨hused, h.2⟩

theorem Split.keep (h : Split s v d mmio) (hk : KeepsRows s s') (hs : s'.subpages mmio = s.subpages mmio)
    (hc : s.subpageCount ≤ s'.subpageCount) : Split s' v d mmio := by
  obtain ⟨i, hlt, hi, hused, hrow⟩ := h.row
  obtain ⟨hused', hrow'⟩ := hk i hused
  refine ⟨⟨i, hlt, hi, hused', hrow'.trans hrow⟩, h.offset, lt_of_lt_of_le h.allocated hc, ?_⟩
  intro off ho
  exact (h.slots off ho).keep hk (by rw [hs])

@[simp] theorem ioMemUnassigned_div : ioMemUnassigned / 8 = 2 := rfl

section
variable (hu : s.ioMem 2 = ⟨fun _ _ => some .unassigned, .null⟩ ∧ s.ioMemUsed 2 = true)
include hu

theorem handler_unassigned : FullHandler s ioMemUnassigned := by
  have hsize := t.pageSize_ge
  constructor
  · constructor
    · show 16 < t.pageSize
      omega
    · decide
    · exact .inl rfl
    · rw [ioMemUnassigned_div]
      exact hu.2
    · intro dir w
      rw [ioMemUnassigned_div, hu.1]
      simp
  · intro dir w
    rw [ioMemUnassigned_div, hu.1]
    rfl

theorem whole_unassigned (hi : index < t.pages) (hv : ∀ off < t.pageSize, v off = (2, index * t.pageSize + off)) :
    Whole s v ⟨ioMemUnassigned, index * t.pageSize⟩ := by
  refine ⟨handler_unassigned hu, ?_⟩
  intro off ho
  have hlt := page_lt hi ho
  dsimp only
  rw [hv off ho, add_comm off, mod_eq_of_lt hlt, ioMemUnassigned_div]

end

/-- What registering one page does to the others: a page may only be given a descriptor it had
none of, and one `subpage_t` changes. -/
structure Frame (s s' : State t) (index mmio : Nat) : Prop where
  rows : KeepsRows s s'
  pages : ∀ j < t.pages, j ≠ index → s'.page j = s.page j ∨
    (s.page j = none ∧ s'.page j = some ⟨ioMemUnassigned, j * t.pageSize⟩)
  subpages : ∀ i < s.subpageCount, i ≠ mmio → s'.subpages i = s.subpages i
  count : s.subpageCount ≤ s'.subpageCount

def Spare (s : State t) (index mmio : Nat) : Prop :=
  ∀ j < t.pages, j ≠ index → ∀ d, s.page j = some d → Mem.isSubpage d.physOffset = true →
    s.subpageOf d.physOffset ≠ mmio

variable {view : Nat → PageView}

section
variable (h : Inv s view)
include h

theorem Frame.pageOk (hf : Frame s s' index mmio) (hm : Spare s index mmio)
    (hj : j < t.pages) (hne : j ≠ index) : PageOk s' (view j) j (s'.page j) := by
  have hok := h.pages j hj
  have hu := hf.rows.row h.unassigned
  obtain hp | ⟨hnone, hp⟩ := hf.pages j hj hne
  · rw [hp]
    cases hd : s.page j with
    | none =>
      rw [hd] at hok
      exact hok
    | some d =>
      rw [hd] at hok
      obtain hw | ⟨id, hs⟩ := hok
      · exact .inl (hw.keep hf.rows)
      · have hne' : id ≠ mmio := by
          have := hm j hj hne d hd hs.isSubpage
          rwa [hs.subpageOf] at this
        exact .inr ⟨id, hs.keep hf.rows (hf.subpages id hs.allocated hne') hf.count⟩
  · rw [hnone] at hok
    rw [hp]
    exact .inl (whole_unassigned hu hj hok)

theorem Frame.subpageOf (hf : Frame s s' index mmio) (hj : j < t.pages)
    (hne : j ≠ index) (hd : s'.page j = some d) (hs : Mem.isSubpage d.physOffset = true) :
    s.page j = some d ∧ s'.subpageOf d.physOffset = s.subpageOf d.physOffset := by
  obtain hp | ⟨-, hp⟩ := hf.pages j hj hne
  · rw [hp] at hd
    refine ⟨hd, ?_⟩
    have hok := h.pages j hj
    rw [hd] at hok
    obtain hw | ⟨id, hsp⟩ := hok
    · rw [hw.not_subpage] at hs
      cases hs
    obtain ⟨i, hlt, hi, hused, hrow⟩ := hsp.row
    have hnb := t.ioMemNbEntries_mul
    have hidx : d.physOffset % t.pageSize / 8 = i := by
      rw [mod_eq_of_lt (by omega)]
      omega
    simp only [State.subpageOf, hidx, (hf.rows i hused).2, hrow]
    rfl
  · rw [hp] at hd
    cases hd
    exact absurd hs (show ¬ Mem.isSubpage ioMemUnassigned = true by decide)

theorem Inv.update (hi : index < t.pages) (hf : Frame s s' index mmio) (hm : Spare s index mmio)
    (hd : s'.page index = some d) (hpage : Whole s' v d ∨ Split s' v d mmio)
    (hown : ∀ off < t.pageSize, (v off).1 = 2 → (v off).2 = index * t.pageSize + off) :
    Inv s' (update view index v) := by
  have hsub : Mem.isSubpage d.physOffset = true → s'.subpageOf d.physOffset = mmio := by
    intro hs
    obtain hw | hsp := hpage
    · rw [hw.not_subpage] at hs
      cases hs
    · exact hsp.subpageOf
  constructor
  · exact hf.rows.row h.zero
  · exact hf.rows.row h.unassigned
  · intro j off ho hv
    by_cases hj : j = index
    · subst hj
      rw [update_self] at hv ⊢
      exact hown off ho hv
    · rw [update_of_ne hj] at hv ⊢
      exact h.own j off ho hv
  · intro j hj
    by_cases hji : j = index
    · subst hji
      rw [update_self, hd]
      obtain hw | hsp := hpage
      · exact .inl hw
      · exact .inr ⟨mmio, hsp⟩
    · rw [update_of_ne hji]
      exact hf.pageOk h hm hj hji
  · intro i hi' j hj d₁ d₂ h₁ h₂ hs₁ hs₂ heq
    by_cases hii : i = index
    · by_cases hji : j = index
      · rw [hii, hji]
      · subst hii
        rw [hd] at h₁
        cases h₁
        obtain ⟨hold, hof⟩ := hf.subpageOf h hj hji h₂ hs₂
        rw [hsub hs₁, hof] at heq
        exact absurd heq.symm (hm j hj hji d₂ hold hs₂)
    obtain ⟨hold₁, hof₁⟩ := hf.subpageOf h hi' hii h₁ hs₁
    by_cases hji : j = index
    · subst hji
      rw [hd] at h₂
      cases h₂
      rw [hof₁, hsub hs₂] at heq
      exact absurd heq (hm i hi' hii d₁ hold₁ hs₁)
    · obtain ⟨hold₂, hof₂⟩ := hf.subpageOf h hj hji h₂ hs₂
      rw [hof₁, hof₂] at heq
      exact h.distinct i hi' j hj d₁ d₂ hold₁ hold₂ hs₁ hs₂ heq

theorem Inv.frame (hf : Frame s s' t.pages mmio) (hm : Spare s t.pages mmio) : Inv s' view := by
  constructor
  · exact hf.rows.row h.zero
  · exact hf.rows.row h.unassigned
  · exact h.own
  · exact fun j hj => hf.pageOk h hm hj (by omega)
  · intro i hi j hj d₁ d₂ h₁ h₂ hs₁ hs₂ heq
    obtain ⟨hold₁, hof₁⟩ := hf.subpageOf h hi (by omega) h₁ hs₁
    obtain ⟨hold₂, hof₂⟩ := hf.subpageOf h hj (by omega) h₂ hs₂
    rw [hof₁, hof₂] at heq
    exact h.distinct i hi j hj d₁ d₂ hold₁ hold₂ hs₁ hs₂ heq

theorem Inv.spare_new : Spare s index s.subpageCount := by
  intro j hj _ d hd hs heq
  have hok := h.pages j hj
  rw [hd] at hok
  obtain hw | ⟨id, hsp⟩ := hok
  · rw [hw.not_subpage] at hs
    cases hs
  · rw [hsp.subpageOf] at heq
    exact absurd hsp.allocated (by omega)

theorem Inv.spare_own (hi : index < t.pages) (hd : s.page index = some d)
    (hs : Mem.isSubpage d.physOffset = true) : Spare s index (s.subpageOf d.physOffset) := by
  intro j hj hne d' hd' hs' heq
  exact hne (h.distinct j hj index hi d' d hd' hd hs' hs heq)

end

end View

end GemDroid.Mem
