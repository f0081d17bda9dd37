import GemDroid.Lib.Reach
import Mathlib.Data.BitVec

/-! The goldfish interrupt controller (`hw/android/goldfish/interrupt.c`).

`level` has the lines that are raised and `irq_enabled` those that may interrupt.
The number of lines in both is not counted anew: every call that changes one of
the words steps `pending_count` by one if the line it changes is in the other. -/
namespace GemDroid.Goldfish.Interrupt
open Lib Finset List Option

/-! ### The model -/

structure IntState where
  level : BitVec 32
  pendingCount : BitVec 32
  irqEnabled : BitVec 32
  fiqEnabled : BitVec 32
  parentIrq : Bool
  parentFiq : Bool
deriving DecidableEq, Repr

open IntState

def interruptStatus : Nat := 0x00
def interruptNumber : Nat := 0x04
def interruptDisableAll : Nat := 0x08
def interruptDisable : Nat := 0x0c
def interruptEnable : Nat := 0x10

def bit (n : Nat) : BitVec 32 := 1#32 <<< n

def intUpdate (s : IntState) : IntState :=
  { s with
    parentIrq := decide (s.level &&& s.irqEnabled ≠ 0)
    parentFiq := decide (s.level &&& s.fiqEnabled ≠ 0) }

def intSetIrq (s : IntState) (irq : Nat) (level : Bool) : IntState :=
  let mask := bit irq
  intUpdate <|
    if level then
      if s.level &&& mask = 0 then
        { s with
          pendingCount := if s.irqEnabled &&& mask ≠ 0 then s.pendingCount + 1 else s.pendingCount
          level := s.level ||| mask }
      else s
    else if s.level &&& mask ≠ 0 then
      { s with
        pendingCount := if s.irqEnabled &&& mask ≠ 0 then s.pendingCount - 1 else s.pendingCount
        level := s.level &&& ~~~mask }
    else s

/-- There is no result if `cpu_abort` ends the program. -/
def intRead (s : IntState) (offset : Nat) : Option (BitVec 32) :=
  if offset = interruptStatus then some s.pendingCount
  else if offset = interruptNumber then
    let pending := s.level &&& s.irqEnabled
    match (List.range 32).find? fun i => decide (pending &&& bit i ≠ 0) with
    | some i => some (BitVec.ofNat 32 i)
    | none => some 0
  else none

def intWrite (s : IntState) (offset : Nat) (value : Nat) : Option IntState :=
  let mask := bit value
  if offset = interruptDisableAll then
    some (intUpdate { s with pendingCount := 0, level := 0 })
  else if offset = interruptDisable then
    some <| intUpdate <|
      if s.irqEnabled &&& mask ≠ 0 then
        { s with
          pendingCount := if s.level &&& mask ≠ 0 then s.pendingCount - 1 else s.pendingCount
          irqEnabled := s.irqEnabled &&& ~~~mask }
      else s
  else if offset = interruptEnable then
    some <| intUpdate <|
      if s.irqEnabled &&& mask = 0 then
        { s with
          irqEnabled := s.irqEnabled ||| mask
          pendingCount := if s.level &&& mask ≠ 0 then s.pendingCount + 1 else s.pendingCount }
      else s
  else none

/-- The state that `goldfish_interrupt_init` allocates. -/
def reset : IntState := ⟨0, 0, 0, 0, false, false⟩

/-! ### Bits -/

variable {n : Nat} {x : BitVec 32} {s : IntState}

theorem getLsbD_bit {i : Nat} (hi : i < 32) : (bit n).getLsbD i = decide (i = n) := by
  rw [bit, BitVec.getLsbD_shiftLeft]
  by_cases h : i < n
  · simp [h]
    omega
  by_cases he : i = n
  · simp [he]
    omega
  · have hne : ¬ i - n = 0 := by omega
    simp [h, he, hi, hne]

theorem and_bit_ne_zero (hn : n < 32) (x : BitVec 32) : x &&& bit n ≠ 0 ↔ x.getLsbD n = true := by
  constructor
  · intro h
    by_contra hbit
    apply h
    apply BitVec.eq_of_getLsbD_eq
    intro i hi
    rw [BitVec.getLsbD_and, getLsbD_bit hi]
    by_cases he : i = n
    · subst he
      simp [hbit]
    · simp [he]
  · intro hbit h
    have := congrArg (fun w : BitVec 32 => w.getLsbD n) h
    simp [getLsbD_bit hn, hbit] at this

theorem and_bit_eq_zero (hn : n < 32) (x : BitVec 32) : x &&& bit n = 0 ↔ x.getLsbD n = false := by
  have := and_bit_ne_zero hn x
  rw [← Bool.not_eq_true, ← this]
  exact not_not.symm

/-- How many bits of a word are set. -/
def popCount (x : BitVec 32) : Nat := (univ.filter fun i : Fin 32 => x.getLsbD i = true).card

theorem popCount_le (x : BitVec 32) : popCount x ≤ 32 :=
  card_filter_le _ _

theorem popCount_pos_iff (x : BitVec 32) : 0 < popCount x ↔ x ≠ 0 := by
  rw [popCount, card_pos]
  constructor
  · intro ⟨i, hi⟩ hx
    rw [hx] at hi
    simp at hi
  · intro hx
    by_contra hempty
    apply hx
    apply BitVec.eq_of_getLsbD_eq
    intro i hi
    rw [not_nonempty_iff_eq_empty, filter_eq_empty_iff] at hempty
    have := hempty (mem_univ (⟨i, hi⟩ : Fin 32))
    simpa using this

theorem popCount_set {y : BitVec 32} (hn : n < 32) (hx : x.getLsbD n = false)
    (hy : ∀ i < 32, y.getLsbD i = (x.getLsbD i || decide (i = n))) : popCount y = popCount x + 1 := by
  have hset : (univ.filter fun i : Fin 32 => y.getLsbD i = true) =
      insert ⟨n, hn⟩ (univ.filter fun i : Fin 32 => x.getLsbD i = true) := by
    ext i
    rw [mem_insert, mem_filter_univ, mem_filter_univ, hy i i.isLt, Bool.or_eq_true,
      decide_eq_true_iff, Fin.ext_iff, or_comm]
  have hout : (⟨n, hn⟩ : Fin 32) ∉ univ.filter fun i : Fin 32 => x.getLsbD i = true := by
    rw [mem_filter_univ, hx]
    exact Bool.false_ne_true
  rw [popCount, hset, card_insert_of_notMem hout, popCount]

/-! ### The invariant -/

def IntState.pending (s : IntState) : BitVec 32 := s.level &&& s.irqEnabled

def Lowest (x : BitVec 32) (i : Nat) : Prop :=
  x.getLsbD i = true ∧ ∀ j < i, x.getLsbD j = false

/-- What the guest and the processor see of the lines is what they are. -/
structure Exact (s : IntState) : Prop where
  count : s.pendingCount.toNat = popCount s.pending
  irq : s.parentIrq = true ↔ 0 < popCount s.pending
  fiq : s.parentFiq = true ↔ s.level &&& s.fiqEnabled ≠ 0
  number : ∀ i, Lowest s.pending i → intRead s interruptNumber = some (BitVec.ofNat 32 i)

theorem intRead_number {i : Nat} (h : Lowest s.pending i) : intRead s interruptNumber = some (BitVec.ofNat 32 i) := by
  have hi : i < 32 := by
    by_contra hge
    have := h.1
    rw [BitVec.getLsbD_of_ge _ _ (by omega)] at this
    exact absurd this nofun
  have hfind : ((List.range 32).find? fun j => decide (s.level &&& s.irqEnabled &&& bit j ≠ 0)) = some i := by
    rw [find?_range_eq_some]
    refine ⟨?_, List.mem_range.mpr hi, ?_⟩
    · exact decide_eq_true ((and_bit_ne_zero hi _).mpr h.1)
    · intro j hj
      have hzero := (and_bit_eq_zero (show j < 32 by omega) s.pending).mpr (h.2 j hj)
      simp only [pending] at hzero
      simp [hzero]
  simp only [intRead, hfind, if_neg (show ¬ interruptNumber = interruptStatus by decide), if_pos]

/-- The counter is right; the parent lines follow with `goldfish_int_update`. -/
def Counted (s : IntState) : Prop := s.pendingCount = BitVec.ofNat 32 (popCount s.pending)

theorem exact_update (h : Counted s) : Exact (intUpdate s) where
  count := by
    have hle := popCount_le s.pending
    rw [intUpdate, h, BitVec.toNat_ofNat, Nat.mod_eq_of_lt (by omega)]
    rfl
  irq := by
    rw [popCount_pos_iff]
    exact decide_eq_true_iff
  fiq := decide_eq_true_iff
  number _ hi := intRead_number hi

theorem Exact.counted (h : Exact s) : Counted s := by
  apply BitVec.eq_of_toNat_eq
  have hle := popCount_le s.pending
  rw [h.count, BitVec.toNat_ofNat, Nat.mod_eq_of_lt (by omega)]

variable {x' e count : BitVec 32}

section
variable (hn : n < 32) (hcount : count = BitVec.ofNat 32 (popCount (x &&& e)))
include hn hcount

theorem counted_set (hx : x.getLsbD n = false) (hx' : x' = x ||| bit n) :
    (if e &&& bit n ≠ 0 then count + 1 else count) = BitVec.ofNat 32 (popCount (x' &&& e)) := by
  have hbits : ∀ i < 32, (x' &&& e).getLsbD i = ((x &&& e).getLsbD i || (decide (i = n) && e.getLsbD n)) := by
    intro i hi
    rw [hx', BitVec.getLsbD_and, BitVec.getLsbD_or, BitVec.getLsbD_and, getLsbD_bit hi]
    by_cases he : i = n
    · subst he
      simp [hx]
    · simp [he]
  split
  · rename_i hbit
    rw [and_bit_ne_zero hn] at hbit
    have hclear : (x &&& e).getLsbD n = false := by rw [BitVec.getLsbD_and, hx, Bool.false_and]
    have hone := popCount_set hn hclear fun i hi => by rw [hbits i hi, hbit, Bool.and_true]
    rw [hone, hcount, BitVec.ofNat_add]
    rfl
  rename_i hbit
  have hclear : e.getLsbD n = false := (and_bit_eq_zero hn e).mp (not_not.mp hbit)
  have hsame : x' &&& e = x &&& e := by
    apply BitVec.eq_of_getLsbD_eq
    intro i hi
    rw [hbits i hi, hclear, Bool.and_false, Bool.or_false]
  rw [hcount, hsame]

theorem counted_clear (hx : x.getLsbD n = true) (hx' : x' = x &&& ~~~bit n) :
    (if e &&& bit n ≠ 0 then count - 1 else count) = BitVec.ofNat 32 (popCount (x' &&& e)) := by
  have hclear : x'.getLsbD n = false := by
    rw [hx', BitVec.getLsbD_and, BitVec.getLsbD_not, getLsbD_bit hn]
    simp
  have hback : x = x' ||| bit n := by
    apply BitVec.eq_of_getLsbD_eq
    intro i hi
    rw [hx', BitVec.getLsbD_or, BitVec.getLsbD_and, BitVec.getLsbD_not, getLsbD_bit hi]
    by_cases he : i = n
    · subst he
      simp [hx]
    · simp [he, hi]
  -- clearing undoes the setting of the bit
  have hset := counted_set (e := e) hn rfl hclear hback
  rw [hcount, ← hset]
  split
  · rw [BitVec.add_sub_cancel]
  · rfl

end

theorem counted_comm {a b : BitVec 32} : popCount (a &&& b) = popCount (b &&& a) := by
  rw [BitVec.and_comm]

theorem Counted.intSetIrq (h : Counted s) {irq : Nat} (hirq : irq < 32) (level : Bool) :
    Exact (intSetIrq s irq level) := by
  apply exact_update
  cases level with
  | true =>
    rw [if_pos rfl]
    split
    · rename_i hclear
      exact counted_set hirq h ((and_bit_eq_zero hirq _).mp hclear) rfl
    · exact h
  | false =>
    rw [if_neg Bool.false_ne_true]
    split
    · rename_i hset
      exact counted_clear hirq h ((and_bit_ne_zero hirq _).mp hset) rfl
    · exact h

theorem Counted.intWrite {s' : IntState} (h : Counted s) {offset value : Nat}
    (hvalue : offset = interruptDisable ∨ offset = interruptEnable → value < 32)
    (hwrite : intWrite s offset value = some s') : Exact s' := by
  have hswap : s.pendingCount = BitVec.ofNat 32 (popCount (s.irqEnabled &&& s.level)) := by
    rw [counted_comm]
    exact h
  simp only [Interrupt.intWrite] at hwrite
  split at hwrite
  · rw [← some.inj hwrite]
    apply exact_update
    simp [Counted, pending, popCount]
  split at hwrite
  · rename_i hoff
    have hlt := hvalue (.inl hoff)
    rw [← some.inj hwrite]
    apply exact_update
    split
    · rename_i hset
      rw [Counted, pending, counted_comm]
      exact counted_clear hlt hswap ((and_bit_ne_zero hlt _).mp hset) rfl
    · exact h
  split at hwrite
  · rename_i hoff
    have hlt := hvalue (.inr hoff)
    rw [← some.inj hwrite]
    apply exact_update
    split
    · rename_i hclear
      rw [Counted, pending, counted_comm]
      exact counted_set hlt hswap ((and_bit_eq_zero hlt _).mp hclear) rfl
    · exact h
  · exact absurd hwrite nofun

/-! ### Runs -/

inductive Act where
  | setIrq (irq : Nat) (level : Bool)
  | write (offset value : Nat)

/-- A step; interrupt numbers are below 32. -/
def Acts (s : IntState) : Act → IntState → Prop
  | .setIrq irq level, s' => irq < 32 ∧ s' = intSetIrq s irq level
  | .write offset value, s' =>
    (offset = interruptDisable ∨ offset = interruptEnable → value < 32) ∧ intWrite s offset value = some s'

/-- In every state the counter, the lines to the processor and the number that is
read agree with the two words. -/
theorem interrupts_exact {s : IntState} (h : Reach (· = reset) Acts s) : Exact s := by
  apply h.invariant
  · intro s hs
    have hreset : Counted reset := by simp [Counted, pending, popCount, reset]
    have := exact_update hreset
    rw [hs]
    exact this
  · intro s a s' hexact hact
    cases a with
    | setIrq irq level =>
      obtain ⟨hirq, rfl⟩ := hact
      exact hexact.counted.intSetIrq hirq level
    | write offset value => exact hexact.counted.intWrite hact.1 hact.2

/-- Line 5 raised and then enabled. -/
theorem lineFive_exact : Exact ⟨bit 5, 1, bit 5, 0, true, false⟩ := by
  have hraised : Reach (· = reset) Acts ⟨bit 5, 0, 0, 0, false, false⟩ :=
    .step (a := .setIrq 5 true) (.start rfl) ⟨by decide, by decide⟩
  exact interrupts_exact (.step (a := .write interruptEnable 5) hraised ⟨fun _ => by decide, by decide⟩)

end GemDroid.Goldfish.Interrupt
