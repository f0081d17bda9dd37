import GemDroid.Lib.Probing
import GemDroid.Lib.Reach
import Mathlib.Data.BitVec

/-! Sets of pointers (`android/base/containers/PointerSet.cpp`, `HashUtils.cpp`).

The pointers are in a table with open addressing that has a power of two of slots. It is
made larger or smaller when a pointer is put into a slot that was unused, never when one
replaces a tombstone, so tombstones can take up all slots and pointers replace them
all. A search for a pointer that is not there then ends at a slot of another one. -/
namespace GemDroid.Containers
open Lib Lib.Probing List

/-! ### The model -/

abbrev Ptr := BitVec 64

def unusedSlot : Ptr := 0

def tombstone : Ptr := ~~~0

abbrev ValidValue (obj : Ptr) : Prop := Valid unusedSlot tombstone obj

def kPrimes : List Nat :=
  [1, 2, 3, 7, 13, 31, 61, 127, 251, 509, 1021, 2039, 4093, 8191, 16381, 32749, 65521, 131071, 262139, 524287,
   1048573, 2097143, 4194301, 8388593, 16777213, 33554393, 67108859, 134217689, 268435399, 536870909, 1073741789,
   2147483647]

def kMinShift : Nat := 3
def kMaxShift : Nat := 31
def kLoadScale : Nat := 1024
def kMinLoad : Nat := kLoadScale / 4
def kMaxLoad : Nat := kLoadScale * 3 / 4

def hashCapacityCompare (size shift : Nat) : Int :=
  if 2 ^ shift * kMinLoad > size * kLoadScale then 1
  else if 2 ^ shift * kMaxLoad < size * kLoadScale then -1
  else 0

/-- The loop of `hashShiftAdjust` for a table that is too small, `left` steps below
`kMaxShift`. -/
def increaseShift (size : Nat) : Nat → Nat → Nat
  | 0, newShift => newShift
  | left + 1, newShift =>
    if hashCapacityCompare size (newShift + 1) < 0 then increaseShift size left (newShift + 1) else newShift + 1

/-- The loop for a table that is too large, `left` steps above `kMinShift`. -/
def decreaseShift (size : Nat) : Nat → Nat → Nat
  | 0, newShift => newShift
  | left + 1, newShift =>
    if hashCapacityCompare size (newShift - 1) > 0 then decreaseShift size left (newShift - 1) else newShift - 1

def hashShiftAdjust (size shift : Nat) : Nat :=
  let ret := hashCapacityCompare size shift
  if ret < 0 then increaseShift size (kMaxShift - shift) shift
  else if ret > 0 then decreaseShift size (shift - kMinShift) shift
  else shift

def probeLoop (obj : Ptr) (items : Nat → Ptr) (probeMask : Nat) : Nat → Nat → Nat → Option Nat → Nat
  | left, probeIndex, step, tomb =>
    if items probeIndex = obj then probeIndex
    else if items probeIndex = unusedSlot then tomb.getD probeIndex
    else
      let tomb := if items probeIndex = tombstone ∧ tomb = none then some probeIndex else tomb
      match left with
      | 0 => tomb.getD probeIndex
      | left + 1 => probeLoop obj items probeMask left ((probeIndex + (step + 1)) &&& probeMask) (step + 1) tomb

def probeItems (obj : Ptr) (objHash : Nat) (items : Nat → Ptr) (shift : Nat) : Nat :=
  let probeMask := 2 ^ shift - 1
  let probeIndex0 := (objHash % kPrimes.getD shift 1) &&& probeMask
  probeLoop obj items probeMask probeMask probeIndex0 0 none

structure PointerSet where
  mShift : Nat
  mCount : Nat
  mItems : Nat → Ptr

open PointerSet

namespace PointerSet
variable (hashFunc : Ptr → Nat)

def init : PointerSet := ⟨kMinShift, 0, fun _ => unusedSlot⟩

def contains (s : PointerSet) (obj : Ptr) : Bool :=
  if obj = 0 then false
  else decide (ValidValue (s.mItems (probeItems obj (hashFunc obj) s.mItems s.mShift)))

def clear (s : PointerSet) : PointerSet :=
  ⟨kMinShift, 0, fun n => if n < 2 ^ kMinShift then unusedSlot else s.mItems n⟩

/-- The loop of `maybeResize` that fills the new table. -/
def moveItems (items : Nat → Ptr) (capacity newShift : Nat) : Nat → Ptr :=
  (List.range capacity).foldl
    (fun newItems n =>
      if ValidValue (items n) then
        Function.update newItems (probeItems (items n) (hashFunc (items n)) newItems newShift) (items n)
      else newItems)
    fun _ => unusedSlot

def maybeResize (s : PointerSet) : PointerSet :=
  let newShift := hashShiftAdjust s.mCount s.mShift
  if newShift = s.mShift then s
  else { s with mShift := newShift, mItems := moveItems hashFunc s.mItems (2 ^ s.mShift) newShift }

def addItem (s : PointerSet) (obj : Ptr) : Ptr × PointerSet :=
  if ¬ ValidValue obj then (0, s)
  else
    let s := if s.mCount ≥ 2 ^ s.mShift then s.maybeResize hashFunc else s
    let pos := probeItems obj (hashFunc obj) s.mItems s.mShift
    let result := s.mItems pos
    if ValidValue result then (result, s)
    else
      let s := { s with mItems := Function.update s.mItems pos obj, mCount := s.mCount + 1 }
      (0, if result ≠ tombstone then s.maybeResize hashFunc else s)

def removeItem (s : PointerSet) (obj : Ptr) : Ptr × PointerSet :=
  if ¬ ValidValue obj then (0, s)
  else
    let pos := probeItems obj (hashFunc obj) s.mItems s.mShift
    let result := s.mItems pos
    if ¬ ValidValue result then (0, s)
    else (result, { s with mItems := Function.update s.mItems pos tombstone, mCount := s.mCount - 1 })

def toArray (s : PointerSet) : Option (List Ptr) :=
  if s.mCount = 0 then none
  else some (((List.range (2 ^ s.mShift)).map s.mItems).filter fun item => decide (ValidValue item))

/-- `PointerSetBase::Iterator::next` with `left` slots before the capacity: the item and the
new position. -/
def iterNext (items : Nat → Ptr) : Nat → Nat → Ptr × Nat
  | 0, pos => (0, pos)
  | left + 1, pos => if ValidValue (items pos) then (items pos, pos + 1) else iterNext items left (pos + 1)

/-- What `next` returns from a position on while `hasNext`. -/
def iterFrom (items : Nat → Ptr) (capacity : Nat) : Nat → Nat → List Ptr
  | 0, _ => []
  | rounds + 1, pos =>
    if pos < capacity then
      (iterNext items (capacity - pos) pos).1 ::
        iterFrom items capacity rounds (iterNext items (capacity - pos) pos).2
    else []

/-- A whole iteration. A round moves the position on. -/
def iterate (s : PointerSet) : List Ptr := iterFrom s.mItems (2 ^ s.mShift) (2 ^ s.mShift) 0

end PointerSet

/-! ### Probing -/

section Probe
variable (hashFunc : Ptr → Nat)

/-- The slots that `probeItems` looks at. -/
def path (shift : Nat) (obj : Ptr) (i : Nat) : Nat :=
  (hashFunc obj % kPrimes.getD shift 1 % 2 ^ shift + triangle i) % 2 ^ shift

variable (shift : Nat)

theorem path_covers (obj : Ptr) : Covers (2 ^ shift) (path hashFunc shift obj) :=
  triangular_covers shift _

theorem path_succ (obj : Ptr) (i : Nat) :
    (path hashFunc shift obj i + (i + 1)) &&& (2 ^ shift - 1) = path hashFunc shift obj (i + 1) := by
  rw [Nat.and_two_pow_sub_one_eq_mod, path, path, Nat.mod_add_mod, triangle_succ, add_assoc]

theorem probeLoop_eq (obj : Ptr) (items : Nat → Ptr) (left step : Nat) (tomb : Option Nat) :
    probeLoop obj items (2 ^ shift - 1) left (path hashFunc shift obj step) step tomb =
      probe unusedSlot tombstone items (path hashFunc shift obj) obj left step tomb := by
  induction left generalizing step tomb with
  | zero =>
    rfl
  | succ left ih =>
    rw [probeLoop, probe]
    simp only [path_succ, ih]
    rfl

theorem probeItems_eq (obj : Ptr) (items : Nat → Ptr) : probeItems obj (hashFunc obj) items shift =
      find unusedSlot tombstone (2 ^ shift) (path hashFunc shift) items obj := by
  have hstart : hashFunc obj % kPrimes.getD shift 1 &&& (2 ^ shift - 1) = path hashFunc shift obj 0 := by
    rw [Nat.and_two_pow_sub_one_eq_mod, path, show triangle 0 = 0 from rfl, add_zero, Nat.mod_mod]
  rw [probeItems, hstart, probeLoop_eq]
  rfl

end Probe

/-! ### The size of the table -/

variable {shift size : Nat} {hashFunc : Ptr → Nat} {t : Traced}

theorem compare_pos (h : hashCapacityCompare size shift > 0) : 4 * size < 2 ^ shift := by
  rw [hashCapacityCompare] at h
  split at h
  · rename_i hload
    rw [kMinLoad, kLoadScale] at hload
    omega
  · split at h <;> exact absurd h (by decide)

theorem compare_full (h : 2 ^ shift ≤ size) : hashCapacityCompare size shift < 0 := by
  have hpos := Nat.two_pow_pos shift
  rw [hashCapacityCompare, kMinLoad, kMaxLoad, kLoadScale, if_neg (by omega), if_pos (by omega)]
  decide

theorem increaseShift_bounds (size left shift : Nat) :
    shift ≤ increaseShift size left shift ∧ increaseShift size left shift ≤ shift + left ∧
      (0 < left → shift < increaseShift size left shift) := by
  induction left generalizing shift with
  | zero => exact ⟨le_rfl, le_rfl, fun h => absurd h (by omega)⟩
  | succ left ih =>
    rw [increaseShift]
    split
    · have := ih (shift + 1)
      omega
    · omega

theorem decreaseShift_bounds (size left shift : Nat) (hleft : left ≤ shift) (hsize : 4 * size < 2 ^ shift) :
    decreaseShift size left shift ≤ shift ∧ shift - left ≤ decreaseShift size left shift ∧
      size < 2 ^ decreaseShift size left shift := by
  induction left generalizing shift with
  | zero =>
    rw [decreaseShift]
    omega
  | succ left ih =>
    have hhalf : 2 ^ shift = 2 * 2 ^ (shift - 1) := by
      rw [← pow_succ', Nat.sub_add_cancel (by omega)]
    rw [decreaseShift]
    split
    · rename_i hcompare
      have := ih (shift - 1) (by omega) (compare_pos hcompare)
      omega
    · omega

/-- A table that is made larger or smaller has room for more than what is in it. -/
theorem hashShiftAdjust_spec (hmin : kMinShift ≤ shift) (hmax : shift ≤ kMaxShift)
    (hsize : size ≤ 2 ^ shift) (hne : hashShiftAdjust size shift ≠ shift) :
    kMinShift ≤ hashShiftAdjust size shift ∧ hashShiftAdjust size shift ≤ kMaxShift ∧
      size < 2 ^ hashShiftAdjust size shift := by
  simp only [hashShiftAdjust] at hne ⊢
  split
  · rename_i hneg
    rw [if_pos hneg] at hne
    obtain ⟨hle, hge, -⟩ := increaseShift_bounds size (kMaxShift - shift) shift
    have hlt : 2 ^ shift < 2 ^ increaseShift size (kMaxShift - shift) shift :=
      Nat.pow_lt_pow_right (by decide) (by omega)
    omega
  rename_i hneg
  rw [if_neg hneg] at hne
  split
  · rename_i hpos
    obtain ⟨hle, hge, hlt⟩ := decreaseShift_bounds size (shift - kMinShift) shift (by omega) (compare_pos hpos)
    omega
  · rename_i hpos
    rw [if_neg hpos] at hne
    exact absurd rfl hne

theorem hashShiftAdjust_full (hmax : shift < kMaxShift) (hsize : 2 ^ shift ≤ size) :
    hashShiftAdjust size shift ≠ shift := by
  have := increaseShift_bounds size (kMaxShift - shift) shift
  rw [hashShiftAdjust, if_pos (compare_full hsize)]
  omega

/-! ### The set that a table holds -/

section Represents
variable (hashFunc : Ptr → Nat)

abbrev HoldsPtrs (shift : Nat) (items : Nat → Ptr) (S : Finset Ptr) : Prop :=
  Holds unusedSlot tombstone (2 ^ shift) (path hashFunc shift) items S

structure Represents (s : PointerSet) (S : Finset Ptr) : Prop where
  min : kMinShift ≤ s.mShift
  max : s.mShift ≤ kMaxShift
  holds : HoldsPtrs hashFunc s.mShift s.mItems S
  count : s.mCount = S.card

variable {hashFunc} {s : PointerSet} {S : Finset Ptr} {obj : Ptr}

theorem represents_init : Represents hashFunc init ∅ :=
  ⟨le_rfl, by decide, Holds.empty fun _ _ => rfl, rfl⟩

theorem Represents.clear : Represents hashFunc s.clear ∅ :=
  ⟨le_rfl, (by decide : kMinShift ≤ kMaxShift), Holds.empty fun _ hn => if_pos hn, rfl⟩

variable (items : Nat → Ptr)

theorem moveItems_eq (capacity newShift : Nat) : moveItems hashFunc items capacity newShift =
      fill unusedSlot tombstone (2 ^ newShift) (path hashFunc newShift) (fun _ => unusedSlot)
        (elements unusedSlot tombstone capacity items) := by
  rw [moveItems, fill, elements, foldl_filter, foldl_map]
  simp [probeItems_eq]

section
variable (h : Represents hashFunc s S)
include h

theorem Represents.maybeResize : Represents hashFunc (s.maybeResize hashFunc) S ∧
    ((s.maybeResize hashFunc) = s ∨ S.card < 2 ^ (s.maybeResize hashFunc).mShift) := by
  simp only [PointerSet.maybeResize]
  split
  · exact ⟨h, .inl rfl⟩
  rename_i hne
  have hsize : s.mCount ≤ 2 ^ s.mShift := h.count ▸ h.holds.card_le
  obtain ⟨hmin, hmax, hroom⟩ := hashShiftAdjust_spec h.min h.max hsize hne
  have hempty : HoldsPtrs hashFunc (hashShiftAdjust s.mCount s.mShift) (fun _ => unusedSlot) ∅ :=
    Holds.empty fun _ _ => rfl
  have hlen := h.holds.length_elements
  have hfill := hempty.fill (elements unusedSlot tombstone (2 ^ s.mShift) s.mItems) (path_covers hashFunc _)
    (fun x hx => ((h.holds.mem x).mp (h.holds.mem_elements.mp hx)).1) (fun x _ => Finset.notMem_empty x)
    h.holds.nodup_elements (by rw [Finset.card_empty, hlen, ← h.count]; omega)
  rw [Finset.empty_union, h.holds.toFinset_elements, ← moveItems_eq] at hfill
  exact ⟨⟨hmin, hmax, hfill, h.count⟩, .inr (h.count ▸ hroom)⟩

theorem Represents.probe_mem (hobj : obj ∈ S) : s.mItems (probeItems obj (hashFunc obj) s.mItems s.mShift) = obj := by
  rw [probeItems_eq]
  exact (h.holds.find_mem (path_covers hashFunc _ obj) hobj).2

section
variable (hvalid : ValidValue obj)
include hvalid

/-- A free slot for a pointer that is not in the set, if the table is not full. -/
theorem Represents.probe_absent (hobj : obj ∉ S) (hroom : S.card < 2 ^ s.mShift) : ∃ m < 2 ^ s.mShift,
      probeItems obj (hashFunc obj) s.mItems s.mShift = path hashFunc s.mShift obj m ∧
        Free unusedSlot tombstone s.mItems (path hashFunc s.mShift obj) m := by
  rw [probeItems_eq]
  obtain ⟨-, hfree⟩ | ⟨hfull, -⟩ :=
    h.holds.find_absent (path_covers hashFunc _ obj) (Nat.two_pow_pos _) hvalid hobj
  · exact hfree
  · omega

theorem Represents.probe_full (hobj : obj ∉ S) (hfull : ¬ S.card < 2 ^ s.mShift) :
    ValidValue (s.mItems (probeItems obj (hashFunc obj) s.mItems s.mShift)) := by
  rw [probeItems_eq]
  obtain ⟨hroom, -⟩ | ⟨-, -, hother⟩ :=
    h.holds.find_absent (path_covers hashFunc _ obj) (Nat.two_pow_pos _) hvalid hobj
  · exact absurd hroom hfull
  · exact hother

/-! ### The operations -/

/-- `contains` tells whether a pointer is in the set, if and only if the table has room or
the pointer is in it. -/
theorem Represents.contains_iff : (s.contains hashFunc obj = true ↔ obj ∈ S) ↔ (obj ∉ S → S.card < 2 ^ s.mShift) := by
  have hcontains : s.contains hashFunc obj = true ↔
      ValidValue (s.mItems (probeItems obj (hashFunc obj) s.mItems s.mShift)) := by
    rw [PointerSet.contains, if_neg (show ¬ obj = 0 from hvalid.1), decide_eq_true_iff]
  rw [hcontains]
  by_cases hobj : obj ∈ S
  · rw [h.probe_mem hobj]
    exact iff_of_true (iff_of_true hvalid hobj) fun hnot => absurd hobj hnot
  by_cases hroom : S.card < 2 ^ s.mShift
  · obtain ⟨m, -, hprobe, hfree⟩ := h.probe_absent hvalid hobj hroom
    rw [hprobe]
    exact iff_of_true (iff_of_false hfree.free hobj) fun _ => hroom
  · apply iff_of_false
    · exact fun hiff => hobj (hiff.mp (h.probe_full hvalid hobj hroom))
    · exact fun himp => hroom (himp hobj)

theorem Represents.removeItem (hroom : obj ∉ S → S.card < 2 ^ s.mShift) :
    (s.removeItem hashFunc obj).1 = (if obj ∈ S then obj else 0) ∧
      Represents hashFunc (s.removeItem hashFunc obj).2 (S.erase obj) := by
  rw [PointerSet.removeItem, if_neg (not_not.mpr hvalid)]
  by_cases hobj : obj ∈ S
  · have hslot := h.probe_mem hobj
    have hlt : probeItems obj (hashFunc obj) s.mItems s.mShift < 2 ^ s.mShift := by
      rw [probeItems_eq]
      exact (h.holds.find_mem (path_covers hashFunc _ obj) hobj).1
    simp only [hslot, hvalid, not_true_eq_false, if_false, hobj, if_true, true_and]
    refine ⟨h.min, h.max, h.holds.erase (by decide) hlt hslot, ?_⟩
    simp [Finset.card_erase_of_mem hobj, h.count]
  · obtain ⟨m, -, hprobe, hfree⟩ := h.probe_absent hvalid hobj (hroom hobj)
    simp only [hprobe, if_pos hfree.free, if_neg hobj, Finset.erase_eq_of_notMem hobj]
    exact ⟨trivial, h⟩

theorem Represents.put (hobj : obj ∉ S) (hroom : S.card < 2 ^ s.mShift) :
    ¬ ValidValue (s.mItems (probeItems obj (hashFunc obj) s.mItems s.mShift)) ∧ Represents hashFunc
        { s with
          mItems := Function.update s.mItems (probeItems obj (hashFunc obj) s.mItems s.mShift) obj
          mCount := s.mCount + 1 } (insert obj S) := by
  obtain ⟨m, hm, hprobe, hfree⟩ := h.probe_absent hvalid hobj hroom
  rw [hprobe]
  refine ⟨hfree.free, h.min, h.max, h.holds.insert hvalid hobj hm (path_covers hashFunc _ obj) hfree, ?_⟩
  simp [Finset.card_insert_of_notMem hobj, h.count]

theorem Represents.addItem (hroom : obj ∉ S → S.card < 2 ^ s.mShift ∨ s.mShift < kMaxShift) :
    (s.addItem hashFunc obj).1 = (if obj ∈ S then obj else 0) ∧
      Represents hashFunc (s.addItem hashFunc obj).2 (insert obj S) := by
  rw [PointerSet.addItem, if_neg (not_not.mpr hvalid)]
  -- the table in which the pointer is looked for
  obtain ⟨s', hs', hrep, hroom'⟩ : ∃ s', (if s.mCount ≥ 2 ^ s.mShift then s.maybeResize hashFunc else s) = s' ∧
      Represents hashFunc s' S ∧ (obj ∉ S → S.card < 2 ^ s'.mShift) := by
    by_cases hfull : s.mCount ≥ 2 ^ s.mShift
    · refine ⟨_, if_pos hfull, h.maybeResize.1, fun hobj => ?_⟩
      have hmax := (hroom hobj).resolve_left (by rw [← h.count]; omega)
      obtain hsame | hlt := h.maybeResize.2
      · have hshift := congrArg PointerSet.mShift hsame
        have hne := hashShiftAdjust_full hmax hfull
        simp only [PointerSet.maybeResize, if_neg hne] at hshift
        exact absurd hshift hne
      · exact hlt
    · refine ⟨s, if_neg hfull, h, fun _ => ?_⟩
      rw [← h.count]
      omega
  simp only [hs']
  by_cases hobj : obj ∈ S
  · have hslot := hrep.probe_mem hobj
    simp only [hslot, if_pos hvalid, if_pos hobj, Finset.insert_eq_of_mem hobj]
    exact ⟨trivial, hrep⟩
  obtain ⟨hfree, hput⟩ := hrep.put hvalid hobj (hroom' hobj)
  simp only [if_neg hfree, if_neg hobj]
  refine ⟨trivial, ?_⟩
  split
  · exact hput.maybeResize.1
  · exact hput

end

theorem Represents.toArray : (s.toArray.getD []).Nodup ∧ ∀ p, p ∈ s.toArray.getD [] ↔ p ∈ S := by
  rw [PointerSet.toArray]
  split
  · rename_i hzero
    have hempty : S = ∅ := Finset.card_eq_zero.mp (h.count ▸ hzero)
    rw [hempty]
    simp
  · exact ⟨h.holds.nodup_elements, fun p => h.holds.mem_elements⟩

end

/-- The pointers in `left` slots from a position on. -/
def elementsFrom (items : Nat → Ptr) (pos left : Nat) : List Ptr :=
  ((List.range' pos left).map items).filter fun item => decide (ValidValue item)

theorem elementsFrom_succ (pos left : Nat) : elementsFrom items pos (left + 1) =
      (if ValidValue (items pos) then [items pos] else []) ++ elementsFrom items (pos + 1) left := by
  rw [elementsFrom, List.range'_succ, map_cons, filter_cons, elementsFrom]
  by_cases hvalid : ValidValue (items pos)
  · simp [hvalid]
  · simp [hvalid]

theorem iterNext_spec (left pos : Nat) :
    (iterNext items left pos).2 ≤ pos + left ∧ (0 < left → pos < (iterNext items left pos).2) ∧
      elementsFrom items pos left = [(iterNext items left pos).1].filter (· ≠ 0) ++
        elementsFrom items (iterNext items left pos).2 (pos + left - (iterNext items left pos).2) := by
  induction left generalizing pos with
  | zero =>
    refine ⟨le_rfl, fun h => absurd h (by omega), ?_⟩
    simp [iterNext, elementsFrom]
  | succ left ih =>
    rw [iterNext, elementsFrom_succ]
    split
    · rename_i hvalid
      have hne : items pos ≠ 0#64 := hvalid.1
      refine ⟨by simp only; omega, fun _ => by simp only; omega, ?_⟩
      have hkept : [items pos].filter (· ≠ 0) = [items pos] := by simp [hne]
      rw [show pos + (left + 1) - (pos + 1) = left by omega, hkept]
    · obtain ⟨hle, hlt, helements⟩ := ih (pos + 1)
      refine ⟨by omega, fun _ => ?_, ?_⟩
      · by_cases hleft : 0 < left
        · have := hlt hleft
          omega
        · obtain rfl : left = 0 := by omega
          simp [iterNext]
      · rw [nil_append, helements, show pos + 1 + left = pos + (left + 1) by omega]

theorem iterFrom_spec (capacity rounds pos : Nat) (h : capacity - pos ≤ rounds) :
    (iterFrom items capacity rounds pos).filter (· ≠ 0) = elementsFrom items pos (capacity - pos) := by
  induction rounds generalizing pos with
  | zero =>
    rw [show capacity - pos = 0 by omega]
    rfl
  | succ rounds ih =>
    rw [iterFrom]
    split
    · obtain ⟨hle, hlt, helements⟩ := iterNext_spec items (capacity - pos) pos
      rw [← singleton_append, filter_append, ih _ (by omega), helements,
        show pos + (capacity - pos) = capacity by omega]
    · rw [show capacity - pos = 0 by omega]
      rfl

theorem Represents.iterate (h : Represents hashFunc s S) :
    (s.iterate.filter (· ≠ 0)).Nodup ∧ ∀ p, p ∈ s.iterate.filter (· ≠ 0) ↔ p ∈ S := by
  have helements : s.iterate.filter (· ≠ 0) = elements unusedSlot tombstone (2 ^ s.mShift) s.mItems := by
    rw [PointerSet.iterate, iterFrom_spec _ _ _ _ (Nat.sub_le _ _), elementsFrom, elements, range_eq_range']
    rfl
  rw [helements]
  exact ⟨h.holds.nodup_elements, fun p => h.holds.mem_elements⟩

end Represents

/-! ### Runs -/

inductive Call where
  | add (obj : Ptr)
  | remove (obj : Ptr)
  | contains (obj : Ptr)
  | clear
  | size
  | toArray
  | iterate
deriving DecidableEq, Repr

inductive Answer where
  | ptr (p : Ptr)
  | bool (b : Bool)
  | size (n : Nat)
  | list (ptrs : List Ptr)
  | none
deriving DecidableEq, Repr

def call (hashFunc : Ptr → Nat) (s : PointerSet) : Call → Answer × PointerSet
  | .add obj => (.ptr (s.addItem hashFunc obj).1, (s.addItem hashFunc obj).2)
  | .remove obj => (.ptr (s.removeItem hashFunc obj).1, (s.removeItem hashFunc obj).2)
  | .contains obj => (.bool (s.contains hashFunc obj), s)
  | .clear => (.none, s.clear)
  | .size => (.size s.mCount, s)
  | .toArray => (.list (s.toArray.getD []), s)
  | .iterate => (.list s.iterate, s)

def specNext (S : Finset Ptr) : Call → Finset Ptr
  | .add obj => insert obj S
  | .remove obj => S.erase obj
  | .clear => ∅
  | _ => S

def SpecAnswer (S : Finset Ptr) : Call → Answer → Prop
  | .add obj, .ptr p => p = if obj ∈ S then obj else 0
  | .remove obj, .ptr p => p = if obj ∈ S then obj else 0
  | .contains obj, .bool b => b = true ↔ obj ∈ S
  | .clear, .none => True
  | .size, .size n => n = S.card
  | .toArray, .list ptrs => ptrs.Nodup ∧ ∀ p, p ∈ ptrs ↔ p ∈ S
  | .iterate, .list ptrs => (ptrs.filter (· ≠ 0)).Nodup ∧ ∀ p, p ∈ ptrs.filter (· ≠ 0) ↔ p ∈ S
  | _, _ => False

/-- The pointer of a call is neither `NULL` nor the tombstone. -/
def InDomain : Call → Prop
  | .add obj => ValidValue obj
  | .remove obj => ValidValue obj
  | .contains obj => ValidValue obj
  | _ => True

instance : DecidablePred InDomain
  | .add obj | .remove obj | .contains obj => inferInstanceAs (Decidable (ValidValue obj))
  | .clear | .size | .toArray | .iterate => .isTrue trivial

/-- The table in a run, and the pointers that were added and not removed since. -/
structure Traced where
  set : PointerSet
  members : Finset Ptr

def Calls (hashFunc : Ptr → Nat) (t : Traced) (c : Call) (t' : Traced) : Prop :=
  InDomain c ∧ t' = ⟨(call hashFunc t.set c).2, specNext t.members c⟩

def Starts (t : Traced) : Prop := t = ⟨PointerSet.init, ∅⟩

/-- A pointer that is not in the set is looked for or removed only if it has fewer pointers
than slots, and added only if that is so or the table can grow. -/
def Meets (t : Traced) : Call → Prop
  | .contains obj => obj ∉ t.members → t.set.mCount < 2 ^ t.set.mShift
  | .remove obj => obj ∉ t.members → t.set.mCount < 2 ^ t.set.mShift
  | .add obj => obj ∉ t.members → t.set.mCount < 2 ^ t.set.mShift ∨ t.set.mShift < kMaxShift
  | _ => True

theorem call_right {c : Call} (h : Represents hashFunc t.set t.members) (hdomain : InDomain c) (hmeets : Meets t c) :
    SpecAnswer t.members c (call hashFunc t.set c).1 ∧
      Represents hashFunc (call hashFunc t.set c).2 (specNext t.members c) := by
  cases c with
  | add obj => exact h.addItem hdomain (by rw [← h.count]; exact hmeets)
  | remove obj => exact h.removeItem hdomain (by rw [← h.count]; exact hmeets)
  | contains obj => exact ⟨(h.contains_iff hdomain).mpr (by rw [← h.count]; exact hmeets), h⟩
  | clear => exact ⟨trivial, Represents.clear⟩
  | size => exact ⟨h.count, h⟩
  | toArray => exact ⟨h.toArray, h⟩
  | iterate => exact ⟨h.iterate, h⟩

/-- In a run that asks a full table only for what is in it, the table is the set of the
pointers added and not removed since: its size is their number, and each call answers as
the set does. -/
theorem set_right {hashFunc : Ptr → Nat} {t : Traced}
    (h : Reach Starts (fun t c t' => Meets t c ∧ Calls hashFunc t c t') t) :
    t.set.mCount = t.members.card ∧ ∀ c, InDomain c → Meets t c → SpecAnswer t.members c (call hashFunc t.set c).1 := by
  have hrep : Represents hashFunc t.set t.members := by
    apply h.invariant
    · intro t ht
      rw [ht]
      exact represents_init
    · intro t c t' hrep ⟨hmeets, hdomain, ht'⟩
      rw [ht']
      exact (call_right hrep hdomain hmeets).2
  exact ⟨hrep.count, fun c hdomain hmeets => (call_right hrep hdomain hmeets).1⟩

def oneAdded : Traced := ⟨(call (fun p => p.toNat) PointerSet.init (.add 5)).2, specNext ∅ (.add 5)⟩

/-- Another pointer is not found in the set. -/
theorem oneAdded_right :
    SpecAnswer oneAdded.members (.contains 6) (call (fun p => p.toNat) oneAdded.set (.contains 6)).1 := by
  have hadd : Reach Starts (fun t c t' => Meets t c ∧ Calls (fun p => p.toNat) t c t') oneAdded :=
    .step (a := .add 5) (.start rfl) ⟨fun _ => .inl (by decide), by decide, by rw [oneAdded]⟩
  have hroom : Meets oneAdded (.contains 6) := by
    intro _
    decide +kernel
  exact (set_right hadd).2 (.contains 6) (by decide) hroom

/-- Eight slots become tombstones: pointers with the home slots 6, 6 and 0 to 5 are added
and removed, no more than six at a time. Eight pointers then take all slots. -/
def fillTable : List Call :=
  [.add 6, .add 13, .remove 6, .remove 13, .add 7, .add 1, .add 2, .add 3, .add 4, .add 5,
   .remove 7, .remove 1, .remove 2, .remove 3, .remove 4, .remove 5,
   .add 1, .add 2, .add 3, .add 4, .add 5, .add 6, .add 7, .add 8]

/-- The set is then said to contain a pointer that was never added, and the removal of that
pointer removes another. -/
theorem full_table_contains_all : ∃ t, Reach Starts (Calls fun p => p.toNat) t ∧ (100 : Ptr) ∉ t.members ∧
    t.set.contains (fun p => p.toNat) 100 = true ∧ (t.set.removeItem (fun p => p.toNat) 100).1 ∈ t.members := by
  have hdomain : ∀ c ∈ fillTable, InDomain c := by decide +kernel
  exact ⟨_, Reach.foldl fillTable (fun c hc _ => ⟨hdomain c hc, rfl⟩) (.start rfl), by decide +kernel, by decide +kernel, by decide +kernel⟩

end GemDroid.Containers
