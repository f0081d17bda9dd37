import Mathlib.Algebra.BigOperators.Group.List.Basic
import Mathlib.Algebra.Ring.Int.Defs
import Mathlib.Algebra.Ring.Nat

/-! Cutting a list into blocks.

Every element has a weight. A block takes elements from the front as long as their weight does not
pass its limit. If the limits add up to the weight of the list, the blocks take the whole list only
if each of them is full: what is left of a limit is missing at the end. -/
namespace GemDroid.Lib.Blocks
open List

variable {u : Nat}

variable {α : Type} (w : α → Nat)

def weight (l : List α) : Nat := (l.map w).sum

def fit : Nat → List α → List α × List α
  | _, [] => ([], [])
  | n, a :: l => if w a ≤ n then (a :: (fit (n - w a) l).1, (fit (n - w a) l).2) else ([], a :: l)

/-- The blocks for a list of limits, and the rest. -/
def cut : List Nat → List α → List (List α) × List α
  | [], l => ([], l)
  | n :: ns, l => ((fit w n l).1 :: (cut ns (fit w n l).2).1, (cut ns (fit w n l).2).2)

variable {w} {n : Nat} {ns : List Nat} {l l' : List α}

@[simp] theorem weight_nil : weight w [] = 0 := rfl

@[simp] theorem weight_cons (a : α) : weight w (a :: l) = w a + weight w l := by simp [weight]

@[simp] theorem weight_append : weight w (l ++ l') = weight w l + weight w l' := by simp [weight]

theorem weight_const (hw : ∀ a ∈ l, w a = u) : weight w l = l.length * u := by
  induction l with
  | nil => simp
  | cons a l ih =>
    rw [weight_cons, ih (forall_mem_cons.1 hw).2, hw a (mem_cons_self ..), length_cons, Nat.succ_mul, add_comm]

theorem fit_append (n : Nat) (l : List α) : (fit w n l).1 ++ (fit w n l).2 = l := by
  induction l generalizing n with
  | nil => rfl
  | cons a l ih =>
    rw [fit]
    split
    · rw [cons_append, ih]
    · rfl

theorem weight_fit_le (n : Nat) (l : List α) : weight w (fit w n l).1 ≤ n := by
  induction l generalizing n with
  | nil => exact Nat.zero_le _
  | cons a l ih =>
    rw [fit]
    split
    next hle =>
      have := ih (n - w a)
      rw [weight_cons]
      omega
    · exact Nat.zero_le _

theorem fit_all (h : weight w l ≤ n) : fit w n l = (l, []) := by
  induction l generalizing n with
  | nil => rfl
  | cons a l ih =>
    rw [weight_cons] at h
    rw [fit, if_pos (by omega), ih (by omega)]

theorem weight_fit (n : Nat) (l : List α) : weight w (fit w n l).1 + weight w (fit w n l).2 = weight w l := by
  rw [← weight_append, fit_append]

theorem cut_append (ns : List Nat) (l : List α) : (cut w ns l).1.flatten ++ (cut w ns l).2 = l := by
  induction ns generalizing l with
  | nil => rfl
  | cons n ns ih => rw [cut, flatten_cons, append_assoc, ih, fit_append]

/-- Every block is within a limit. -/
theorem weight_le_of_mem_cut {b : List α} (h : b ∈ (cut w ns l).1) : ∃ n ∈ ns, weight w b ≤ n := by
  induction ns generalizing l with
  | nil => cases h
  | cons n ns ih =>
    obtain rfl | h := mem_cons.1 h
    · exact ⟨n, mem_cons_self .., weight_fit_le n l⟩
    · obtain ⟨m, hm, hle⟩ := ih h
      exact ⟨m, mem_cons_of_mem _ hm, hle⟩

theorem eq_nil_of_weight_zero (hw : ∀ a, 0 < w a) (h : weight w l = 0) : l = [] := by
  cases l with
  | nil => rfl
  | cons a l =>
    have := hw a
    rw [weight_cons] at h
    omega

/-- What is not in the rest is at most what the limits allow. -/
theorem weight_le_of_rest (ns : List Nat) (l : List α) (hrest : (cut w ns l).2 = []) : weight w l ≤ ns.sum := by
  induction ns generalizing l with
  | nil =>
    obtain rfl : l = [] := hrest
    exact Nat.zero_le _
  | cons n ns ih =>
    have hfirst := weight_fit_le (w := w) n l
    have hothers := ih _ hrest
    have hsum := weight_fit (w := w) n l
    rw [sum_cons]
    omega

/-- If the limits add up to the weight of the list and nothing is left, every block is full. -/
theorem map_weight_cut (hsum : ns.sum = weight w l) (hrest : (cut w ns l).2 = []) :
    (cut w ns l).1.map (weight w) = ns := by
  induction ns generalizing l with
  | nil => rfl
  | cons n ns ih =>
    have hfirst := weight_fit_le (w := w) n l
    have hothers := weight_le_of_rest ns (fit w n l).2 hrest
    have hweight := weight_fit (w := w) n l
    rw [sum_cons] at hsum
    have hfull : weight w (fit w n l).1 = n := by omega
    rw [cut, map_cons, hfull, ih (by omega) hrest]

/-- Elements of one weight fill a limit that is a multiple of it. -/
theorem weight_fit_uniform (hw : ∀ a ∈ l, w a = u) (hdvd : u ∣ n) (hle : n ≤ weight w l) :
    weight w (fit w n l).1 = n := by
  induction l generalizing n with
  | nil => exact (Nat.le_zero.1 hle).symm
  | cons a l ih =>
    have ha := hw a (mem_cons_self ..)
    rw [weight_cons] at hle
    rw [fit]
    split
    next hfits =>
      have hrest : u ∣ n - w a := Nat.dvd_sub hdvd (ha ▸ Nat.dvd_refl _)
      rw [weight_cons, ih (forall_mem_cons.1 hw).2 hrest (by omega)]
      omega
    next hnot =>
      obtain ⟨k, rfl⟩ := hdvd
      have hzero : k = 0 := by
        by_contra hk
        have := Nat.le_mul_of_pos_right u (Nat.pos_of_ne_zero hk)
        omega
      rw [hzero]
      rfl

/-- Elements of one weight are all taken, if the limits are multiples of it and add up. -/
theorem cut_uniform (hpos : 0 < u) (hw : ∀ a ∈ l, w a = u) (hdvd : ∀ n ∈ ns, u ∣ n)
    (hsum : ns.sum = weight w l) : (cut w ns l).2 = [] := by
  induction ns generalizing l with
  | nil =>
    rw [weight_const hw, sum_nil] at hsum
    have hlen : l.length = 0 := by
      rcases Nat.mul_eq_zero.1 hsum.symm with h | h
      · exact h
      · omega
    exact length_eq_zero_iff.1 hlen
  | cons n ns ih =>
    rw [sum_cons] at hsum
    have hfull := weight_fit_uniform hw (hdvd n (mem_cons_self ..)) (by omega)
    have hweight := weight_fit (w := w) n l
    refine ih ?_ (forall_mem_cons.1 hdvd).2 (by omega)
    intro a ha
    exact hw a (fit_append (w := w) n l ▸ mem_append_right _ ha)

end GemDroid.Lib.Blocks
