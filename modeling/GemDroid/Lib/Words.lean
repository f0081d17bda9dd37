import Mathlib.Data.BitVec

/-! Words seen through a narrower window.

An operation that works on the low bits of its operands commutes with cutting the operands
down to those bits; these are the cases the core library leaves out. -/
namespace GemDroid.Words

variable {n m : Nat}

theorem setWidth_sub (x y : BitVec n) (h : m ≤ n) : (x - y).setWidth m = x.setWidth m - y.setWidth m := by
  rw [BitVec.sub_eq_add_neg, BitVec.setWidth_add _ _ h, BitVec.setWidth_neg_of_le h, ← BitVec.sub_eq_add_neg]

theorem setWidth_signExtend (x : BitVec n) (h : n ≤ m) : (x.signExtend m).setWidth n = x := by
  ext i hi
  simp [BitVec.getElem_signExtend, hi, lt_of_lt_of_le hi h]

end GemDroid.Words
