import Mathlib.Data.List.Lex
import Mathlib.Data.Prod.Lex

/-! The order of strings (`android/base/String.cpp`).

`compare` looks at both strings up to a zero byte, which may be one in the middle, and then at the sizes;
`equals` looks at all bytes. -/
namespace GemDroid.Containers.StringOrder
open List

/-- `strncmp`; behind the bytes of a string there is a zero. -/
def strncmp : Nat → List Nat → List Nat → Int
  | 0, _, _ => 0
  | n + 1, s1, s2 =>
    let ch1 := s1.headD 0
    let ch2 := s2.headD 0
    if ch1 ≠ ch2 then ch1 - ch2 else if ch1 = 0 then 0 else strncmp n s1.tail s2.tail

def compare (mStr str : List Nat) : Int :=
  if mStr.length = 0 then if str.length = 0 then 0 else -1
  else if str.length = 0 then 1
  else
    let ret := strncmp str.length mStr str
    if ret < 0 then -1
    else if ret > 0 then 1
    else if mStr.length < str.length then -1
    else if mStr.length > str.length then 1
    else 0

def equals (mStr str : List Nat) : Bool :=
  if mStr.length = 0 then decide (str.length = 0)
  else if str.length ≠ mStr.length then false
  else decide (mStr = str)

/-- The bytes before the first zero. -/
def upToZero (str : List Nat) : List Nat := str.takeWhile (· ≠ 0)

/-- What strings are ordered by. -/
def key (str : List Nat) : List Nat ×ₗ Nat := toLex (upToZero str, str.length)

/-- Two strings of one size that differ only behind a zero byte. -/
def DifferBehindZero (a b : List Nat) : Prop := key a = key b ∧ a ≠ b

theorem upToZero_eq (a : List Nat) : upToZero a = if a.headD 0 = 0 then [] else a.headD 0 :: upToZero a.tail := by
  cases a with
  | nil => rfl
  | cons x a => by_cases h : x = 0 <;> simp [upToZero, h]

theorem lt_of_first {x y : Nat} (h : x < y) (a b : List Nat) :
    (if x = 0 then [] else x :: a) < if y = 0 then [] else y :: b := by
  rw [if_neg (Nat.ne_zero_of_lt h)]
  split
  · exact nil_lt_cons _ _
  · exact .rel h

/-- Where `strncmp` ends before it finds a difference, the first string may still be the longer one. -/
theorem strncmp_cases (a b : List Nat) :
    strncmp b.length a b < 0 ∧ upToZero a < upToZero b ∨ 0 < strncmp b.length a b ∧ upToZero b < upToZero a ∨
      strncmp b.length a b = 0 ∧ (upToZero a = upToZero b ∨ upToZero b < upToZero a ∧ b.length < a.length) := by
  induction b generalizing a with
  | nil =>
    cases a with
    | nil => simp [strncmp]
    | cons x a => by_cases h : x = 0 <;> simp [strncmp, upToZero, h]
  | cons y b ih =>
    rw [upToZero_eq a, upToZero_eq (y :: b), length_cons, strncmp, headD_cons, tail_cons]
    generalize hx : a.headD 0 = x
    obtain hlt | rfl | hlt := lt_trichotomy x y
    · rw [if_pos hlt.ne]
      exact .inl ⟨by omega, lt_of_first hlt _ _⟩
    · rw [if_neg (not_not.mpr rfl)]
      by_cases hzero : x = 0
      · simp [hzero]
      have hlen : a.length = a.tail.length + 1 := by
        cases a with
        | nil => exact absurd hx.symm hzero
        | cons x a => rfl
      simp only [if_neg hzero, cons_lt_cons_iff, lt_irrefl, false_or, true_and, cons.injEq, hlen, Nat.add_lt_add_iff_right]
      exact ih a.tail
    · rw [if_pos hlt.ne']
      exact .inr (.inl ⟨by omega, lt_of_first hlt _ _⟩)

theorem compare_cases (a b : List Nat) :
    compare a b = -1 ∧ key a < key b ∨ compare a b = 0 ∧ key a = key b ∨ compare a b = 1 ∧ key b < key a := by
  have hlt : ∀ a b, key a < key b ↔ upToZero a < upToZero b ∨ upToZero a = upToZero b ∧ a.length < b.length :=
    fun _ _ => Prod.Lex.lt_iff
  have heq : key a = key b ↔ upToZero a = upToZero b ∧ a.length = b.length := by simp [key]
  rw [hlt, heq, hlt, compare]
  by_cases ha : a.length = 0
  · rw [if_pos ha, length_eq_zero_iff.mp ha]
    cases b with
    | nil => simp
    | cons y b => by_cases hy : y = 0 <;> simp [hy, upToZero]
  by_cases hb : b.length = 0
  · rw [if_neg ha, if_pos hb, length_eq_zero_iff.mp hb]
    cases a with
    | nil => exact absurd rfl ha
    | cons x a => by_cases hx : x = 0 <;> simp [hx, upToZero]
  simp only [if_neg ha, if_neg hb]
  obtain ⟨hret, hless⟩ | ⟨hret, hless⟩ | ⟨hret, hsame | ⟨hless, hlen⟩⟩ := strncmp_cases a b
  · exact .inl ⟨if_pos hret, .inl hless⟩
  · exact .inr (.inr ⟨by rw [if_neg (by omega), if_pos hret], .inl hless⟩)
  · simp only [hret, hsame, lt_irrefl, if_false, gt_iff_lt, true_and, false_or]
    split_ifs <;> omega
  · simp [hret, hless, hlen, hlen.le]

theorem equals_iff (a b : List Nat) : equals a b = true ↔ a = b := by
  rw [equals]
  split_ifs with hempty hlen
  · rw [length_eq_zero_iff.mp hempty, decide_eq_true_iff, length_eq_zero_iff, eq_comm]
  · exact iff_of_false not_false fun heq => hlen (by rw [heq])
  · exact decide_eq_true_iff

theorem compare_le_iff (a b : List Nat) : compare a b ≤ 0 ↔ key a ≤ key b := by
  obtain ⟨h, hkey⟩ | ⟨h, hkey⟩ | ⟨h, hkey⟩ := compare_cases a b
  · exact iff_of_true (by omega) hkey.le
  · exact iff_of_true (by omega) hkey.le
  · exact iff_of_false (by omega) hkey.not_ge

theorem compare_eq_zero_iff (a b : List Nat) : compare a b = 0 ↔ key a = key b := by
  obtain ⟨h, hkey⟩ | ⟨h, hkey⟩ | ⟨h, hkey⟩ := compare_cases a b
  · exact iff_of_false (by omega) hkey.ne
  · exact iff_of_true h hkey
  · exact iff_of_false (by omega) hkey.ne'

/-- `compare` orders all strings, and it agrees with `equals` on two strings if and only if they do not
differ behind a zero byte only. -/
theorem compare_order (a b : List Nat) : compare a b = -compare b a ∧
    (∀ c, compare a b ≤ 0 → compare b c ≤ 0 → compare a c ≤ 0) ∧
      ((compare a b = 0 ↔ equals a b = true) ↔ ¬ DifferBehindZero a b) := by
  refine ⟨?_, fun c hab hbc => ?_, ?_⟩
  · have hab := compare_cases a b
    have hba := compare_cases b a
    grind
  · rw [compare_le_iff] at *
    exact hab.trans hbc
  · have hkey : a = b → key a = key b := congrArg key
    rw [compare_eq_zero_iff, equals_iff, DifferBehindZero]
    tauto

/-- The strings differ in their last byte. -/
theorem behind_zero_same : compare [97, 0, 98] [97, 0, 99] = 0 ∧ equals [97, 0, 98] [97, 0, 99] = false := by decide

end GemDroid.Containers.StringOrder
