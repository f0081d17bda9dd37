import GemDroid.Mem.Phys
import Mathlib.Tactic.Ring

/-! The table of descriptors as a map.

The digits of an index tell leaves apart, so a descriptor is read as it was last written. A
leaf that is allocated gives all its pages descriptors at once. -/
namespace GemDroid.Mem
open Lib Radix

variable {index index' : Nat}

section Digits
variable (t : Target)

theorem Target.levels_spec : 0 < t.levels ∧ t.vL1Shift = t.levels * l2Bits ∧
    t.vL1Bits + t.vL1Shift = t.addrSpaceBits - t.pageBits := by
  have hwide := t.wide
  have hbits : t.vL1Bits = (t.addrSpaceBits - t.pageBits) % 10 ∨
      t.vL1Bits = (t.addrSpaceBits - t.pageBits) % 10 + 10 := by
    unfold Target.vL1Bits Target.vL1BitsRem l2Bits
    split
    · exact .inr rfl
    · exact .inl rfl
  unfold Target.levels Target.vL1Shift l2Bits
  omega

variable {t}

theorem digit_congr (h : index / l2Size = index' / l2Size) (level : Nat) :
    digit t index level = digit t index' level := by
  obtain ⟨hpos, hshift, -⟩ := t.levels_spec
  have hdiv : ∀ k n, n / 2 ^ ((k + 1) * l2Bits) = n / l2Size / 2 ^ (k * l2Bits) := by
    intro k n
    rw [Nat.div_div_eq_div_mul, l2Size, ← pow_add]
    congr 2
    ring
  unfold digit
  split
  · obtain ⟨k, hk⟩ : ∃ k, t.levels = k + 1 := ⟨t.levels - 1, by omega⟩
    rw [hshift, hk, hdiv, hdiv, h]
  · rw [hdiv, hdiv, h]

section
variable (h : index < t.pages) (h' : index' < t.pages)
include h h'

theorem eq_of_digits (hd : ∀ level < t.levels, digit t index level = digit t index' level) :
    index / l2Size = index' / l2Size := by
  obtain ⟨hpos, hshift, hsum⟩ := t.levels_spec
  -- from the first level down, the index above a level's digits is determined
  have hall : ∀ k, k < t.levels → index / 2 ^ ((t.levels - k) * l2Bits) = index' / 2 ^ ((t.levels - k) * l2Bits) := by
    intro k
    induction k with
    | zero =>
      intro _
      have htop := hd (t.levels - 1) (by omega)
      have hsmall : ∀ n < t.pages, n / 2 ^ t.vL1Shift < 2 ^ t.vL1Bits := by
        intro n hn
        rw [Nat.div_lt_iff_lt_mul (Nat.two_pow_pos _), ← pow_add, hsum]
        exact hn
      rw [digit, digit, if_pos (by omega), if_pos (by omega), Nat.mod_eq_of_lt (hsmall _ h),
        Nat.mod_eq_of_lt (hsmall _ h'), hshift] at htop
      exact htop
    | succ k ih =>
      intro hk
      have hup := ih (by omega)
      obtain ⟨m, hm⟩ : ∃ m, t.levels - (k + 1) = m + 1 := ⟨t.levels - (k + 1) - 1, by omega⟩
      have hm' : t.levels - k = m + 2 := by omega
      have hdig := hd m (by omega)
      rw [digit, digit, if_neg (by omega), if_neg (by omega)] at hdig
      have hsplit : ∀ n, n / 2 ^ ((m + 1) * l2Bits) =
          l2Size * (n / 2 ^ ((m + 2) * l2Bits)) + n / 2 ^ ((m + 1) * l2Bits) % l2Size := by
        intro n
        have hpow : 2 ^ ((m + 2) * l2Bits) = 2 ^ ((m + 1) * l2Bits) * l2Size := by
          rw [l2Size, ← pow_add]
          congr 1
          ring
        rw [hpow, ← Nat.div_div_eq_div_mul]
        exact (Nat.div_add_mod _ _).symm
      rw [hm'] at hup
      rw [hm, hsplit index, hsplit index', hup, hdig]
  have hlast := hall (t.levels - 1) (by omega)
  rw [show t.levels - (t.levels - 1) = 1 by omega, one_mul] at hlast
  exact hlast

theorem digits_ne (hne : index' / l2Size ≠ index / l2Size) :
    ∃ level < t.levels, digit t index' level ≠ digit t index level := by
  by_contra hall
  push Not at hall
  exact hne (eq_of_digits h' h hall)

end

end Digits

section Table
variable {t : Target} {map : Radix (Nat → PhysPageDesc) t.levels} {p : PhysPageDesc}

theorem physPageFind_set_self : physPageFind t (physPageSet t map index p) index =
    (physPageFind t map index).map fun _ => p := by
  rw [physPageFind, physPageSet, find_modify, physPageFind]
  cases map.find (digit t index) t.levels with
  | none => rfl
  | some pd => simp

theorem physPageFind_set_other (h : index < t.pages) (h' : index' < t.pages) (hne : index' ≠ index) :
    physPageFind t (physPageSet t map index p) index' = physPageFind t map index' := by
  unfold physPageFind physPageSet
  by_cases hleaf : index' / l2Size = index / l2Size
  · have hlow : index' % l2Size ≠ index % l2Size := by
      intro hlow
      exact hne (by rw [← Nat.div_add_mod index' l2Size, ← Nat.div_add_mod index l2Size, hleaf, hlow])
    rw [find_congr t.levels _ (fun level _ => digit_congr hleaf level), find_modify,
      find_congr t.levels map (fun level _ => digit_congr hleaf level)]
    cases map.find (digit t index) t.levels with
    | none => rfl
    | some pd => simp [hlow]
  · rw [find_modify_other t.levels map (digits_ne h h' hleaf)]

/-- After an allocation the pages of the leaf have descriptors: new ones, if they had none. -/
theorem physPageFind_alloc_leaf (h : index' / l2Size = index / l2Size) :
    physPageFind t (physPageAlloc t map index) index' = some ((physPageFind t map index').getD
        ⟨ioMemUnassigned, (index + index' % l2Size) * t.pageSize % 2 ^ 64⟩) := by
  unfold physPageFind physPageAlloc
  rw [find_congr t.levels _ (fun level _ => digit_congr h level), find_alloc,
    find_congr t.levels map (fun level _ => digit_congr h level), Option.bind_some]
  cases map.find (digit t index) t.levels <;> rfl

theorem physPageFind_alloc_other (h : index < t.pages) (h' : index' < t.pages)
    (hne : index' / l2Size ≠ index / l2Size) :
    physPageFind t (physPageAlloc t map index) index' = physPageFind t map index' := by
  unfold physPageFind physPageAlloc
  rw [find_alloc_other t.levels (some map) (digits_ne h h' hne)]
  rfl

theorem physPageFind_none_leaf (h : index' / l2Size = index / l2Size) :
    physPageFind t map index' = none ↔ physPageFind t map index = none := by
  unfold physPageFind
  rw [find_congr t.levels map (fun level _ => digit_congr h level)]
  simp

end Table

end GemDroid.Mem
