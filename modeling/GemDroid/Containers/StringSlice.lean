import Mathlib.Algebra.Ring.Int.Defs
import Mathlib.Algebra.Ring.Nat

/-! Strings that are moved in memory (`android/base/String.cpp`).

A string of up to 15 bytes is in the object itself, and its pointer points there; a longer one is in
a buffer on the heap, whose capacity is kept where the short string would be. A vector moves its
strings byte by byte and then sets the pointers of the short ones again. -/
namespace GemDroid.Containers.Strings
open Function List Option

variable {str : List Nat}

/-- Where a `String` of a vector is: the block of memory, by a number, and the place in it. -/
structure Addr where
  block : Nat
  index : Nat
deriving DecidableEq, Repr

abbrev Mem : Type := Nat → Nat

def memcpy (dest src : Mem) (n : Nat) : Mem := fun k => if k < n then src k else dest k

/-- `memset` with zero, from one place up to another. -/
def clear (dest : Mem) (start stop : Nat) : Mem := fun k => if start ≤ k ∧ k < stop then 0 else dest k

def readBytes (mem : Mem) (n : Nat) : List Nat := (List.range n).map mem

def memOf (bytes : List Nat) : Mem := fun k => bytes.getD k 0

/-- A `char*` of a `String`: `NULL`, the `mStorage` of the string that is, or was, at an address, or a
buffer of the heap with its bytes. Nothing else points to that buffer. -/
inductive CharPtr where
  | null
  | storage (addr : Addr)
  | heap (buffer : Mem)

def CharPtr.isStorage (addr : Addr) : CharPtr → Bool
  | .storage a => a = addr
  | _ => false

/-- A `String`. `mCapacity` and `mStorage` share their memory: setting the one overwrites the
other, and the code reads the one that it set last. -/
structure Str where
  mStr : CharPtr
  mSize : Nat
  mCapacity : Nat
  mStorage : Mem

open Str

def kMinCapacity : Nat := 15

def zero : Str := ⟨.null, 0, 0, fun _ => 0⟩

/-- The growth of `String::resize` and `PodVectorBase::resize`. A round adds to the capacity. -/
def growLoop (newSize : Nat) : Nat → Nat → Nat
  | 0, newCapacity => newCapacity
  | rounds + 1, newCapacity =>
    if newCapacity < newSize then growLoop newSize rounds (newCapacity + newCapacity / 4 + 8) else newCapacity

def grow (newSize oldCapacity : Nat) : Nat := growLoop newSize newSize oldCapacity

namespace Str

def fixNull (self : Addr) (s : Str) : Str :=
  match s.mStr with
  | .null => { s with mStr := .storage self }
  | _ => s

def capacity (self : Addr) (s : Str) : Nat := if s.mStr.isStorage self then kMinCapacity else s.mCapacity

def store (self : Addr) (s : Str) (write : Mem → Mem) : Option Str :=
  match s.mStr with
  | .storage a => if a = self then some { s with mStorage := write s.mStorage } else none
  | .heap buffer => some { s with mStr := .heap (write buffer) }
  | .null => none

def capacityBytes (s : Str) (newCapacity : Nat) : Mem :=
  fun k => if k < 8 then newCapacity / 256 ^ k % 256 else s.mStorage k

/-- `String::reserve` of the string at `self`; it fails where a pointer would be freed that is
not one of the heap. -/
def reserve (self : Addr) (s : Str) (newSize : Nat) : Option Str :=
  let s := s.fixNull self
  if newSize ≤ kMinCapacity then
    match s.mStr with
    | .heap buffer =>
      { s with mStr := .storage self, mStorage := memcpy s.mStorage buffer newSize }.store self
        (update · newSize 0)
    | _ => s.store self (update · newSize 0)
  else
    match s.mStr with
    | .storage a =>
      if a = self then
        let buffer := clear (memcpy (fun _ => 0) s.mStorage s.mSize) s.mSize newSize
        some { s with
          mStr := .heap (update buffer newSize 0), mCapacity := newSize, mStorage := s.capacityBytes newSize }
      else none
    | .heap buffer =>
      some { s with
        mStr := .heap (update (clear buffer s.mSize newSize) newSize 0), mCapacity := newSize
        mStorage := s.capacityBytes newSize }
    | .null => none

def resize (self : Addr) (s : Str) (newSize : Nat) : Option Str :=
  let s := s.fixNull self
  let oldCapacity := s.capacity self
  let reserved :=
    if newSize < oldCapacity then
      if 256 ≤ oldCapacity ∧ newSize < oldCapacity / 2 then s.reserve self newSize else some s
    else if oldCapacity < newSize then s.reserve self (grow newSize oldCapacity)
    else some s
  reserved.bind fun s => { s with mSize := newSize }.store self (update · newSize 0)

def assign (self : Addr) (s : Str) (str : List Nat) : Option Str :=
  (s.resize self str.length).bind fun s => s.store self (memcpy · (memOf str) str.length)

def bytes (self : Addr) (s : Str) : Option (List Nat) :=
  match s.mStr with
  | .null => if s.mSize = 0 then some [] else none
  | .storage a => if a = self ∧ s.mSize ≤ kMinCapacity + 1 then some (readBytes s.mStorage s.mSize) else none
  | .heap buffer => if s.mSize ≤ s.mCapacity then some (readBytes buffer s.mSize) else none

end Str

/-! ### Slices -/

/-- `String::adjustMovedSlice`, on the strings of the block they were moved to. The rounds of its loop are
about different strings. -/
def adjustMovedSlice (fromStrings toStrings : Addr) (count : Nat) (strings : Nat → Str) : Nat → Str := fun j =>
  if toStrings.index ≤ j ∧ j < toStrings.index + count then
    if (strings j).mStr.isStorage ⟨fromStrings.block, fromStrings.index + (j - toStrings.index)⟩ then
      { strings j with mStr := .storage ⟨toStrings.block, j⟩ }
    else strings j
  else strings j

def memmove (strings : Nat → Str) (source target count : Nat) : Nat → Str := fun j =>
  if target ≤ j ∧ j < target + count then strings (source + (j - target)) else strings j

def moveSlice (block : Nat) (strings : Nat → Str) (source target count : Nat) : Nat → Str :=
  adjustMovedSlice ⟨block, source⟩ ⟨block, target⟩ count (memmove strings source target count)

def finalizeSlice (block first : Nat) : Nat → (Nat → Str) → Option (Nat → Str)
  | 0, strings => some strings
  | n + 1, strings =>
    ((strings (first + n)).reserve ⟨block, first + n⟩ 0).bind fun s =>
      finalizeSlice block first n (update strings (first + n) s)

/-! ### Strings in order -/

/-- The string at `self` is in order and has the bytes `str`. -/
inductive Holds (self : Addr) (s : Str) (str : List Nat) : Prop where
  | null (hstr : s.mStr = .null) (hsize : s.mSize = 0) (hnil : str = [])
  | short (hstr : s.mStr = .storage self) (hsize : s.mSize = str.length) (hlen : str.length ≤ kMinCapacity)
      (hread : readBytes s.mStorage str.length = str)
  | long (buffer : Mem) (hstr : s.mStr = .heap buffer) (hsize : s.mSize = str.length)
      (hlen : str.length ≤ s.mCapacity) (hread : readBytes buffer str.length = str)

theorem length_readBytes (mem : Mem) (n : Nat) : (readBytes mem n).length = n := by simp [readBytes]

theorem readBytes_memcpy (dest : Mem) (str : List Nat) :
    readBytes (memcpy dest (memOf str) str.length) str.length = str := by
  apply ext_getElem (length_readBytes _ _)
  intro k hk hk'
  simp [readBytes, memcpy, memOf, hk']

theorem le_growLoop {newSize rounds newCapacity : Nat} (h : newSize ≤ newCapacity + rounds) :
    newSize ≤ growLoop newSize rounds newCapacity := by
  induction rounds generalizing newCapacity with
  | zero => exact h
  | succ rounds ih =>
    rw [growLoop]
    split
    · exact ih (by omega)
    · omega

theorem le_grow (newSize oldCapacity : Nat) : newSize ≤ grow newSize oldCapacity := le_growLoop (by omega)

variable (self : Addr)

theorem isStorage_self : (CharPtr.storage self).isStorage self = true := decide_eq_true rfl

namespace Holds
variable {self self' : Addr} {s : Str}

section
variable (h : Holds self s str)
include h

theorem bytes_eq : s.bytes self = some str := by
  cases h with
  | null hstr hsize hnil => rw [bytes, hstr, hnil]; exact if_pos hsize
  | short hstr hsize hlen hread =>
    rw [bytes, hstr, hsize]
    exact (if_pos ⟨rfl, Nat.le_succ_of_le hlen⟩).trans (congrArg some hread)
  | long buffer hstr hsize hlen hread =>
    rw [bytes, hstr, hsize]
    exact (if_pos hlen).trans (congrArg some hread)

/-- A string is in order where it was moved to, once its pointer is set again. -/
theorem adjust : Holds self' (if s.mStr.isStorage self = true then { s with mStr := .storage self' } else s) str := by
  cases h with
  | null hstr hsize hnil =>
    rw [hstr, if_neg nofun]
    exact .null hstr hsize hnil
  | short hstr hsize hlen hread =>
    rw [hstr, if_pos (isStorage_self self)]
    exact .short rfl hsize hlen hread
  | long buffer hstr hsize hlen hread =>
    rw [hstr, if_neg nofun]
    exact .long buffer hstr hsize hlen hread

/-- A pointer that is compared with the storage of another string is not changed, or is set to where it
points. -/
theorem setStorage (other : Addr) :
    Holds self (if s.mStr.isStorage other = true then { s with mStr := .storage self } else s) str := by
  split
  · rename_i hother
    cases h with
    | null hstr | long _ hstr => exact absurd (hstr ▸ hother) nofun
    | short _ hsize hlen hread => exact .short rfl hsize hlen hread
  · exact h

/-- Finalizing a string: it has its size still, and its bytes only if there are none or the first
of a short string is zero. -/
theorem reserve_zero : ∃ s', s.reserve self 0 = some s' ∧
    (s.mSize = 0 ∨ s.mStr.isStorage self = true ∧ s.mStorage 0 = 0 → Holds self s' str) := by
  cases h with
  | null hstr hsize hnil =>
    refine ⟨{ s with mStr := .storage self, mStorage := update s.mStorage 0 0 }, ?_, fun _ => ?_⟩
    · simp [reserve, fixNull, store, hstr]
    · rw [hnil]
      exact .short rfl hsize (Nat.zero_le _) rfl
  | short hstr hsize hlen hread =>
    refine ⟨{ s with mStorage := update s.mStorage 0 0 }, ?_, fun hkeep => ?_⟩
    · simp [reserve, fixNull, store, hstr]
    · refine .short hstr hsize hlen ?_
      obtain hzero | ⟨-, hfirst⟩ := hkeep
      · obtain rfl : str = [] := length_eq_zero_iff.mp (hsize.symm.trans hzero)
        rfl
      · have hsame : update s.mStorage 0 0 = s.mStorage := update_eq_self_iff.mpr hfirst.symm
        exact (congrArg (readBytes · str.length) hsame).trans hread
  | long buffer hstr hsize hlen hread =>
    refine ⟨{ s with
      mStr := .storage self, mStorage := update (memcpy s.mStorage buffer 0) 0 0 }, ?_, fun hkeep => ?_⟩
    · simp [reserve, fixNull, store, hstr]
    · obtain hzero | ⟨hstorage, -⟩ := hkeep
      · obtain rfl : str = [] := length_eq_zero_iff.mp (hsize.symm.trans hzero)
        exact .short rfl hsize (Nat.zero_le _) rfl
      · rw [hstr] at hstorage
        exact absurd hstorage nofun

end

end Holds

theorem holds_zero : Holds self zero [] := .null rfl rfl rfl

theorem assign_zero (str : List Nat) : ∃ s, zero.assign self str = some s ∧ Holds self s str := by
  have hcap : capacity self (zero.fixNull self) = kMinCapacity := if_pos (isStorage_self self)
  by_cases hshort : str.length ≤ kMinCapacity
  · have hresize : zero.resize self str.length =
        some ⟨.storage self, str.length, 0, update (fun _ => 0) str.length 0⟩ := by
      have hgrow : ¬ kMinCapacity < str.length := not_lt.mpr hshort
      have hbig : ¬ (256 ≤ kMinCapacity ∧ str.length < kMinCapacity / 2) := fun h => absurd h.1 (by decide)
      simp only [resize, hcap, if_neg hgrow, if_neg hbig, ite_self, bind_some]
      simp [store, fixNull, zero]
    refine ⟨_, by rw [assign, hresize, bind_some, store]; exact if_pos rfl, ?_⟩
    exact .short rfl rfl hshort (readBytes_memcpy _ str)
  have hlong : kMinCapacity < str.length := not_le.mp hshort
  have hgrow := le_grow str.length kMinCapacity
  have hbig : ¬ grow str.length kMinCapacity ≤ kMinCapacity := by omega
  obtain ⟨buffer, storage, hresize⟩ : ∃ buffer storage, zero.resize self str.length =
      some ⟨.heap buffer, str.length, grow str.length kMinCapacity, storage⟩ := by
    simp only [resize, hcap, if_neg (not_lt.mpr (le_of_lt hlong)), if_pos hlong]
    simp [reserve, store, fixNull, zero, hbig]
  refine ⟨_, by rw [assign, hresize, bind_some]; rfl, ?_⟩
  exact .long _ rfl rfl hgrow (readBytes_memcpy _ str)

/-! ### Slices in order -/

variable {block count j source target : Nat} {strings : Nat → Str}

theorem finalizeSlice_some {first : Nat} (h : ∀ n < count, ∃ str, Holds ⟨block, first + n⟩ (strings (first + n)) str) :
    ∃ strings', finalizeSlice block first count strings = some strings' ∧
      ∀ j, j < first ∨ first + count ≤ j → strings' j = strings j := by
  induction count generalizing strings with
  | zero => exact ⟨strings, rfl, fun _ _ => rfl⟩
  | succ n ih =>
    obtain ⟨str, hn⟩ := h n (Nat.lt_succ_self n)
    obtain ⟨s', hs', -⟩ := hn.reserve_zero
    have hrest : ∀ m < n, ∃ str, Holds ⟨block, first + m⟩
        (update strings (first + n) s' (first + m)) str := by
      intro m hm
      rw [update_of_ne (by omega)]
      exact h m (Nat.lt_succ_of_lt hm)
    obtain ⟨strings', hfinal, hsame⟩ := ih hrest
    refine ⟨strings', by rw [finalizeSlice, hs', bind_some, hfinal], fun j hj => ?_⟩
    rw [hsame j (by omega), update_of_ne (by omega)]

theorem moveSlice_moved (hj : target ≤ j ∧ j < target + count)
    (h : Holds ⟨block, source + (j - target)⟩ (strings (source + (j - target))) str) :
    Holds ⟨block, j⟩ (moveSlice block strings source target count j) str := by
  rw [moveSlice, adjustMovedSlice, if_pos hj, memmove, if_pos hj]
  exact h.adjust

theorem moveSlice_other (hj : ¬ (target ≤ j ∧ j < target + count)) : moveSlice block strings source target count j = strings j := by
  rw [moveSlice, adjustMovedSlice, if_neg hj, memmove, if_neg hj]

end GemDroid.Containers.Strings
