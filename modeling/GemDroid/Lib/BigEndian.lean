import Mathlib.Tactic.Ring

/-! Numbers in a stream of bytes, the most significant byte first.

Bytes that are missing at the end of the stream are read as zero. -/
namespace GemDroid.Lib
open List

def putBe : Nat → Nat → List Nat
  | 0, _ => []
  | n + 1, v => v / 256 ^ n % 256 :: putBe n v

/-- `n` bytes as a number, behind `acc`, and what follows them. -/
def getBeFrom : Nat → Nat → List Nat → Nat × List Nat
  | 0, acc, f => (acc, f)
  | n + 1, acc, f => getBeFrom n (acc * 256 + f.headD 0) f.tail

def getBe (n : Nat) (f : List Nat) : Nat × List Nat := getBeFrom n 0 f

theorem getBeFrom_putBe (n acc v : Nat) (rest : List Nat) :
    getBeFrom n acc (putBe n v ++ rest) = (acc * 256 ^ n + v % 256 ^ n, rest) := by
  induction n generalizing acc with
  | zero => simp [getBeFrom, putBe, Nat.mod_one]
  | succ n ih =>
    rw [putBe, cons_append, getBeFrom, headD_cons, tail_cons, ih]
    have hmod : v % 256 ^ (n + 1) = v % 256 ^ n + 256 ^ n * (v / 256 ^ n % 256) := Nat.mod_pow_succ
    rw [hmod]
    refine Prod.ext ?_ rfl
    ring

theorem getBe_putBe (n v : Nat) (rest : List Nat) : getBe n (putBe n v ++ rest) = (v % 256 ^ n, rest) := by
  rw [getBe, getBeFrom_putBe, zero_mul, zero_add]

end GemDroid.Lib
