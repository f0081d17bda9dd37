import Mathlib.Data.Nat.Basic

/-! Tables of tables that are filled on demand.

A table of height `n + 1` holds tables of height `n`, and one of height 0 is a leaf. A key is
looked up by one digit at each height. What is missing on the way to a leaf is added when the
key is first written, and nothing else changes. -/
namespace GemDroid.Lib
open Option

/-- A table of some height, whose entries may be missing. -/
def Radix (α : Type) : Nat → Type
  | 0 => α
  | n + 1 => Nat → Option (Radix α n)

namespace Radix
variable {α : Type} {digit digit' : Nat → Nat} {init : α} {f : α → α}

def find (digit : Nat → Nat) : (n : Nat) → Radix α n → Option α
  | 0, leaf => some leaf
  | n + 1, table =>
    match table (digit n) with
    | none => none
    | some t => find digit n t

def empty (leaf : α) : (n : Nat) → Radix α n
  | 0 => leaf
  | _ + 1 => fun _ => none

/-- Add what is missing on the way to a leaf. -/
def alloc (digit : Nat → Nat) (init : α) : (n : Nat) → Option (Radix α n) → Radix α n
  | 0, none => init
  | 0, some leaf => leaf
  | n + 1, none => fun i => if i = digit n then some (alloc digit init n none) else none
  | n + 1, some table => fun i => if i = digit n then some (alloc digit init n (table i)) else table i

/-- Change the leaf of a key, if it is there. -/
def modify (digit : Nat → Nat) (f : α → α) : (n : Nat) → Radix α n → Radix α n
  | 0, leaf => f leaf
  | n + 1, table => fun i => if i = digit n then (table i).map (modify digit f n) else table i

theorem find_empty {n : Nat} (h : 0 < n) : find digit n (empty init n) = none := by
  cases n with
  | zero => exact absurd h (lt_irrefl 0)
  | succ n => rfl

variable (n : Nat)

theorem find_congr (t : Radix α n) (h : ∀ i < n, digit i = digit' i) : find digit n t = find digit' n t := by
  induction n with
  | zero => rfl
  | succ n ih =>
    rw [find, find, h n (Nat.lt_succ_self n)]
    cases t (digit' n) with
    | none => rfl
    | some t' => exact ih t' fun i hi => h i (Nat.lt_succ_of_lt hi)

/-- The leaf is there afterwards, the old one if there was one. -/
theorem find_alloc (t : Option (Radix α n)) :
    find digit n (alloc digit init n t) = some ((t.bind (find digit n)).getD init) := by
  induction n with
  | zero => cases t <;> rfl
  | succ n ih =>
    cases t with
    | none => simp [alloc, find, ih]
    | some table =>
      simp only [alloc, find, if_true, ih, bind_some]
      cases table (digit n) <;> rfl

theorem differ_below {n : Nat} (h : ∃ i < n + 1, digit' i ≠ digit i) (hn : digit' n = digit n) :
    ∃ i < n, digit' i ≠ digit i := by
  obtain ⟨i, hi, hne⟩ := h
  obtain hlt | rfl := Nat.lt_succ_iff_lt_or_eq.mp hi
  · exact ⟨i, hlt, hne⟩
  · exact absurd hn hne

theorem find_alloc_other (t : Option (Radix α n)) (h : ∃ i < n, digit' i ≠ digit i) :
    find digit' n (alloc digit init n t) = t.bind (find digit' n) := by
  induction n with
  | zero =>
    obtain ⟨i, hi, -⟩ := h
    exact absurd hi (Nat.not_lt_zero i)
  | succ n ih =>
    by_cases hn : digit' n = digit n
    · have hlow := differ_below h hn
      cases t with
      | none =>
        simp [alloc, find, hn, ih none hlow]
      | some table =>
        simp only [alloc, find, hn, if_true, ih (table (digit n)) hlow, bind_some]
        cases table (digit n) <;> rfl
    · cases t with
      | none | some table => simp [alloc, find, hn]

theorem find_modify (t : Radix α n) : find digit n (modify digit f n t) = (find digit n t).map f := by
  induction n with
  | zero => rfl
  | succ n ih =>
    simp only [modify, find, if_true]
    cases table : t (digit n) with
    | none => rfl
    | some t' => exact ih t'

theorem find_modify_other (t : Radix α n) (h : ∃ i < n, digit' i ≠ digit i) :
    find digit' n (modify digit f n t) = find digit' n t := by
  induction n with
  | zero =>
    obtain ⟨i, hi, -⟩ := h
    exact absurd hi (Nat.not_lt_zero i)
  | succ n ih =>
    by_cases hn : digit' n = digit n
    · have hlow := differ_below h hn
      simp only [modify, find, hn, if_true]
      cases t (digit n) with
      | none => rfl
      | some t' => exact ih t' hlow
    · simp [modify, find, hn]

end Radix

end GemDroid.Lib
