import Mathlib.Data.List.Range
import Mathlib.Data.Nat.ModEq

/-! Rings.

`ring N buf first n` is what `n` cells of a buffer of `N` cells hold, in order from the
cell `first` on and round again. Elements are put behind the last one and taken off at
the front, one by one or in blocks. -/
namespace GemDroid.Lib
open Function List

variable {α : Type} {N first n i : Nat} {buf buf' : Nat → α}

def ring (N : Nat) (buf : Nat → α) (first n : Nat) : List α :=
  (range n).map fun i => buf ((first + i) % N)

@[simp] theorem length_ring : (ring N buf first n).length = n := by
  simp [ring]

theorem ring_congr (h : ∀ i < n, buf' ((first + i) % N) = buf ((first + i) % N)) :
    ring N buf' first n = ring N buf first n := by
  apply map_congr_left
  intro i hi
  exact h i (mem_range.mp hi)

/-- The element at the front, one by one or in blocks. -/
theorem ring_succ : ring N buf first (n + 1) = buf (first % N) :: ring N buf ((first + 1) % N) n := by
  rw [ring, range_succ_eq_map, map_cons, map_map]
  congr 1
  apply map_congr_left
  intro i _
  simp only [comp]
  rw [Nat.mod_add_mod, Nat.succ_eq_add_one, show first + (i + 1) = first + 1 + i by omega]

theorem add_mod_ne (hi : i < n) (hn : n < N) : (first + i) % N ≠ (first + n) % N := by
  intro he
  have hmod : i ≡ n [MOD N] := Nat.ModEq.add_left_cancel' first he
  rw [Nat.ModEq, Nat.mod_eq_of_lt (by omega), Nat.mod_eq_of_lt hn] at hmod
  omega

theorem ring_push (hn : n < N) (x : α) :
    ring N (update buf ((first + n) % N) x) first (n + 1) = ring N buf first n ++ [x] := by
  rw [ring, range_succ, map_append]
  congr 1
  · apply ring_congr
    intro i hi
    exact update_of_ne (add_mod_ne hi hn) _ _
  · simp

/-! ### Blocks -/

/-- Elements are stored in the cells from `p` on. -/
def blit (buf : Nat → α) (p : Nat) : List α → Nat → α
  | [] => buf
  | x :: xs => blit (update buf p x) (p + 1) xs

/-- A block is put behind the last element; it does not cross the end of the buffer. -/
theorem ring_blit {xs : List α} {p : Nat} (hn : n + xs.length ≤ N) (hp : xs ≠ [] → p = (first + n) % N)
    (hend : p + xs.length ≤ N) : ring N (blit buf p xs) first (n + xs.length) = ring N buf first n ++ xs := by
  induction xs generalizing buf n p with
  | nil => simp [blit]
  | cons x xs ih =>
    rw [length_cons] at hn hend
    have hp' := hp (by simp)
    have hrest : xs ≠ [] → p + 1 = (first + (n + 1)) % N := by
      intro hne
      have := length_pos_of_ne_nil hne
      rw [← add_assoc, ← Nat.mod_add_mod, ← hp', Nat.mod_eq_of_lt (by omega)]
    have hstep : ring N (blit (update buf p x) (p + 1) xs) first (n + 1 + xs.length) =
        ring N (update buf p x) first (n + 1) ++ xs := ih (by omega) hrest (by omega)
    rw [blit, length_cons, show n + (xs.length + 1) = n + 1 + xs.length by omega, hstep, hp',
      ring_push (by omega), append_assoc, singleton_append]

theorem ring_add (k m : Nat) : ring N buf first (k + m) = ring N buf first k ++ ring N buf ((first + k) % N) m := by
  rw [ring, range_add, map_append, map_map]
  congr 1
  apply map_congr_left
  intro i _
  simp only [comp]
  rw [Nat.mod_add_mod, add_assoc]

theorem ring_block (h : first + n ≤ N) : ring N buf first n = (range n).map fun i => buf (first + i) := by
  apply map_congr_left
  intro i hi
  have := mem_range.mp hi
  rw [Nat.mod_eq_of_lt (by omega)]

end GemDroid.Lib
