import Mathlib.Algebra.Ring.Nat

/-! Buffers that grow (`slirp-android/mbuf.c`).

`m_cat` puts the data of one buffer behind those of another. If the room is too small it asks for
`MINCSIZE` bytes more, however many are missing. -/
namespace GemDroid.Slirp.MbufCat
open List

/-- The type `struct mbuf`: `data` is where `m_data` points into the buffer, which is `m_dat` or,
with `M_EXT`, `m_ext`. What is behind `size` bytes is not the buffer's. -/
structure Mbuf where
  ext : Bool
  size : Nat
  data : Nat
  len : Nat
  memory : Nat → UInt8

def MINCSIZE : Nat := 4096

/-- `m_inc`, with what `malloc` or `realloc` leave in the new part of the buffer. -/
def mInc (m : Mbuf) (size : Int) (fresh : Nat → UInt8) : Mbuf :=
  if m.size > size then m
  else { m with ext := true, size := size.toNat, memory := fun i => if i < m.size then m.memory i else fresh i }

def freeRoom (m : Mbuf) : Int := m.size - m.data - m.len

def makeRoom (m n : Mbuf) (fresh : Nat → UInt8) : Mbuf :=
  if freeRoom m < n.len then mInc m (Int.bmod (m.size + MINCSIZE) (2 ^ 32)) fresh else m

def mCat (m n : Mbuf) (fresh : Nat → UInt8) : Mbuf :=
  { makeRoom m n fresh with
    len := m.len + n.len
    memory := fun i => if m.data + m.len ≤ i ∧ i < m.data + m.len + n.len then n.memory (n.data + (i - (m.data + m.len)))
      else (makeRoom m n fresh).memory i }

/-- The data lie inside the buffer, whose size is an `int`. -/
def Inside (m : Mbuf) : Prop := m.data + m.len ≤ m.size ∧ m.size < 2 ^ 31

/-- The data, from `m_data` on. -/
def content (m : Mbuf) : List UInt8 := (List.range m.len).map fun i => m.memory (m.data + i)

/-- At most `MINCSIZE` bytes are missing, and the new size is an `int`. -/
def CatMeets (m n : Mbuf) : Prop :=
  m.data + m.len + n.len ≤ m.size ∨ m.data + m.len + n.len ≤ m.size + MINCSIZE ∧ m.size + MINCSIZE < 2 ^ 31

section
variable {m n : Mbuf} (hm : Inside m) (hmeets : CatMeets m n) (fresh : Nat → UInt8)
include hm hmeets fresh

theorem makeRoom_right : (makeRoom m n fresh).data = m.data ∧ m.data + m.len + n.len ≤ (makeRoom m n fresh).size ∧
      (makeRoom m n fresh).size < 2 ^ 31 ∧ ∀ i < m.size, (makeRoom m n fresh).memory i = m.memory i := by
  obtain ⟨hin, hsmall⟩ := hm
  rw [makeRoom, freeRoom]
  split
  next hlow =>
    obtain ⟨hfits, hsize⟩ := hmeets.resolve_left (by omega)
    have hnew : Int.bmod (m.size + MINCSIZE) (2 ^ 32) = m.size + MINCSIZE := Int.bmod_eq_of_le (by omega) (by omega)
    rw [hnew, mInc, if_neg (by omega)]
    exact ⟨rfl, by simp only; omega, by simp only; omega, fun i hi => if_pos hi⟩
  next => exact ⟨rfl, by omega, hsmall, fun _ _ => rfl⟩

theorem mCat_right : Inside (mCat m n fresh) ∧ content (mCat m n fresh) = content m ++ content n := by
  obtain ⟨hdata, hfits, hsmall, hkept⟩ := makeRoom_right hm hmeets fresh
  have hin := hm.1
  refine ⟨⟨?_, hsmall⟩, ?_⟩
  · show (makeRoom m n fresh).data + (m.len + n.len) ≤ _
    rw [hdata, ← add_assoc]
    exact hfits
  · have hbyte : ∀ i, (mCat m n fresh).memory ((mCat m n fresh).data + i) =
        if m.len ≤ i ∧ i < m.len + n.len then n.memory (n.data + (i - m.len)) else (makeRoom m n fresh).memory (m.data + i) := by
      intro i
      simp [mCat, hdata, add_assoc, Nat.add_sub_add_left]
    simp only [content, hbyte]
    rw [show (mCat m n fresh).len = m.len + n.len from rfl, range_add, map_append, map_map]
    congr 1
    · refine map_congr_left fun i hi => ?_
      have hi := mem_range.mp hi
      rw [if_neg (by omega), hkept _ (by omega)]
    · refine map_congr_left fun i hi => ?_
      simp [mem_range.mp hi]

end

theorem catMeets_of_inside {m n : Mbuf} {fresh : Nat → UInt8} (hm : Inside m) (h : Inside (mCat m n fresh)) :
    CatMeets m n := by
  have hdata : (makeRoom m n fresh).data = m.data := by
    rw [makeRoom, mInc]
    split <;> [split; skip] <;> rfl
  have hin : m.data + (m.len + n.len) ≤ (makeRoom m n fresh).size := hdata ▸ h.1
  have hsmall := hm.2
  rw [CatMeets]
  rw [makeRoom, freeRoom] at hin
  split at hin
  next hlow =>
    rw [mInc] at hin
    split at hin
    next => omega
    next hgrown =>
      by_cases hsize : m.size + MINCSIZE < 2 ^ 31
      · have hnew : Int.bmod (m.size + MINCSIZE) (2 ^ 32) = m.size + MINCSIZE :=
          Int.bmod_eq_of_le (by omega) (by omega)
        rw [hnew] at hin
        exact .inr ⟨by simp only at hin; omega, hsize⟩
      · -- the new size is negative as an `int`, and the buffer is left as it is
        have hnew : Int.bmod (m.size + MINCSIZE) (2 ^ 32) < 0 := by
          rw [Int.bmod_def, Int.emod_eq_of_lt (by omega) (by rw [MINCSIZE]; omega)]
          rw [MINCSIZE] at hsize ⊢
          omega
        omega
  next => omega

/-- Each call meets the condition, in the state that the calls before it leave. -/
def ChainMeets : Mbuf → List (Mbuf × (Nat → UInt8)) → Prop
  | _, [] => True
  | m, (n, fresh) :: rest => CatMeets m n ∧ ChainMeets (mCat m n fresh) rest

def mCatAll (m : Mbuf) (ns : List (Mbuf × (Nat → UInt8))) : Mbuf := ns.foldl (fun m n => mCat m n.1 n.2) m

/-- The data lie inside the buffer and are those of all the buffers, one behind the other. -/
def Gathered (m : Mbuf) (ns : List (Mbuf × (Nat → UInt8))) : Prop :=
  Inside (mCatAll m ns) ∧ content (mCatAll m ns) = content m ++ ns.flatMap fun n => content n.1

/-- Along a chain of calls, as in `ip_reass`, the data are right exactly if every call meets the
condition. -/
theorem chain_right_iff (m : Mbuf) (ns : List (Mbuf × (Nat → UInt8))) (hm : Inside m) :
    (∀ k, Gathered m (ns.take k)) ↔ ChainMeets m ns := by
  induction ns generalizing m with
  | nil => exact iff_of_true (fun k => by rw [take_nil]; exact ⟨hm, (append_nil _).symm⟩) trivial
  | cons n rest ih =>
    constructor
    · intro h
      have hfirst : Inside (mCat m n.1 n.2) := (h 1).1
      have hmeets := catMeets_of_inside hm hfirst
      refine ⟨hmeets, (ih _ hfirst).mp fun k => ⟨(h (k + 1)).1, ?_⟩⟩
      rw [(mCat_right hm hmeets n.2).2, append_assoc]
      exact (h (k + 1)).2
    · intro ⟨hmeets, hrest⟩ k
      obtain ⟨hin, hcontent⟩ := mCat_right hm hmeets n.2
      cases k with
      | zero => exact ⟨hm, (append_nil _).symm⟩
      | succ k =>
        obtain ⟨hin', hcontent'⟩ := (ih _ hin).mpr hrest k
        refine ⟨hin', ?_⟩
        rw [take_succ_cons, flatMap_cons, ← append_assoc, ← hcontent]
        exact hcontent'

def full (size : Nat) : Mbuf := ⟨false, size, 0, size, fun _ => 7⟩

/-- A buffer grows to hold the data of another, and has room for those of a third then. -/
theorem threeFull_right : Gathered (full 2) [(full 3, fun _ => 0), (full 4000, fun _ => 0)] :=
  (chain_right_iff (full 2) [(full 3, fun _ => 0), (full 4000, fun _ => 0)] ⟨by decide, by decide⟩).mpr
    ⟨.inr ⟨by decide, by decide⟩, .inl (by decide), trivial⟩ 2

/-- The data of a buffer of 5000 bytes are put behind those of a full one of 100. -/
theorem chain_wrong : Inside (full 100) ∧ Inside (full 5000) ∧ ¬ Inside (mCat (full 100) (full 5000) fun _ => 0) :=
  ⟨⟨by decide, by decide⟩, ⟨by decide, by decide⟩, fun h => absurd h.1 (by decide)⟩

end GemDroid.Slirp.MbufCat
