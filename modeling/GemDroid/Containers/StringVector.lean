import GemDroid.Containers.StringSlice
import GemDroid.Lib.Reach
import Mathlib.Data.List.Induction
import Mathlib.Order.Nat

/-! Vectors of strings (`android/base/containers/StringVector.cpp`, `PodVector.cpp`).

The strings are in one block of memory, which may have room for more of them. `remove` finalizes the
first string whatever its index is, and moves one string more than there is; `resize` brings back
strings that it cut off before, and `reserve` cuts off strings that the vector goes on counting. -/
namespace GemDroid.Containers.Strings
open Function (update_of_ne update_self)
open Lib List Option Function Nat

variable {l l' : List (List Nat)} {i count index v : Nat}

/-- A `StringVector`: the block `mBegin` points to (0 for `NULL`), its strings, and `mEnd` and
`mLimit` counted in strings. -/
structure StringVector where
  block : Nat
  strings : Nat → Str
  size : Nat
  capacity : Nat

variable {v' : StringVector}

open StringVector

/-- What `realloc` does in a call: where the block is then, how many strings its usable size is enough
for, and what is in it where nothing was copied or cleared. -/
structure Alloc where
  block : Nat
  usable : Nat → Nat
  stale : Nat → Str
  le_usable : ∀ n, n ≤ usable n

namespace StringVector

def empty : StringVector := ⟨0, fun _ => zero, 0, 0⟩

def podReserve (alloc : Alloc) (v : StringVector) (newSize : Nat) : StringVector :=
  if newSize = 0 then empty
  else
    { block := alloc.block
      strings := fun j =>
        if v.size ≤ j ∧ j < alloc.usable newSize then zero
        else if j < newSize ∧ j < v.capacity then v.strings j
        else alloc.stale j
      size := v.size
      capacity := alloc.usable newSize }

/-- `256 / sizeof(String)` on a 64-bit machine. -/
def podMinCapacity : Nat := 8

/-- Whether `PodVectorBase::resize` makes the block smaller. -/
def Shrinks (v : StringVector) (newSize : Nat) : Prop := newSize < v.capacity / 2 ∧ podMinCapacity < v.capacity

instance (v : StringVector) (newSize : Nat) : Decidable (v.Shrinks newSize) := inferInstanceAs (Decidable (_ ∧ _))

def podResize (alloc : Alloc) (v : StringVector) (newSize : Nat) : StringVector :=
  let v' :=
    if newSize < v.capacity then
      if v.Shrinks newSize then v.podReserve alloc newSize else v
    else if v.capacity < newSize then v.podReserve alloc (grow newSize v.capacity)
    else v
  { v' with size := newSize }

def adjust (v : StringVector) (oldBlock count : Nat) : StringVector :=
  if oldBlock = v.block then v
  else { v with strings := adjustMovedSlice ⟨oldBlock, 0⟩ ⟨v.block, 0⟩ count v.strings }

/-- The beginning of `resize` and `reserve`: what is behind the new size is finalized. -/
def cutOff (v : StringVector) (newSize : Nat) : Option StringVector :=
  if newSize < v.size then
    (finalizeSlice v.block newSize (v.size - newSize) v.strings).map fun strings => { v with strings := strings }
  else some v

def resize (alloc : Alloc) (v : StringVector) (newSize : Nat) : Option StringVector :=
  (v.cutOff newSize).map fun v' => (v'.podResize alloc newSize).adjust v.block newSize

def reserve (alloc : Alloc) (v : StringVector) (newSize : Nat) : Option StringVector :=
  (v.cutOff newSize).map fun v' => (v'.podReserve alloc newSize).adjust v.block newSize

def move (v : StringVector) (source target count : Nat) : Option StringVector :=
  if source + count ≤ v.capacity ∧ target + count ≤ v.capacity then
    some { v with strings := moveSlice v.block v.strings source target count }
  else none

def remove (v : StringVector) (index : Nat) : Option StringVector :=
  if v.size ≤ index then some v
  else
    (finalizeSlice v.block 0 1 v.strings).bind fun strings =>
      (move { v with strings := strings } (index + 1) index (v.size - index)).map fun v' =>
        { v' with size := v.size - 1 }

def emplace (alloc : Alloc) (v : StringVector) (index : Nat) : Option StringVector :=
  (v.resize alloc (v.size + 1)).bind fun v' =>
    (v'.move index (index + 1) (v.size - index)).map fun v' =>
      { v' with strings := update v'.strings index zero }

def stringAt (v : StringVector) (index : Nat) : Option (List Nat) :=
  if index < v.capacity then (v.strings index).bytes ⟨v.block, index⟩ else none

def setString (v : StringVector) (index : Nat) (str : List Nat) : Option StringVector :=
  ((v.strings index).assign ⟨v.block, index⟩ str).map fun s =>
    { v with strings := update v.strings index s }

def assignLoop (other : StringVector) : Nat → StringVector → Option StringVector
  | 0, v => some v
  | n + 1, v =>
    (assignLoop other n v).bind fun v => (other.stringAt n).bind fun str => v.setString n str

def assign (alloc : Alloc) (v : StringVector) (other : Option StringVector) : Option StringVector :=
  (v.reserve alloc 0).bind fun v' =>
    (v'.resize alloc (other.getD v').size).bind fun v'' =>
      assignLoop (other.getD v') (other.getD v').size v''

def contents (v : StringVector) : Option (List (List Nat)) := (range v.size).mapM v.stringAt

end StringVector

/-! ### Runs -/

inductive Arg where
  | bytes (str : List Nat)
  | element (vector index : Nat)

inductive Call where
  | append (v : Nat) (str : Arg)
  | prepend (v : Nat) (str : Arg)
  | insert (v index : Nat) (str : Arg)
  | remove (v index : Nat)
  | resize (v newSize : Nat)
  | reserve (v newSize : Nat)
  | assign (v other : Nat)
  | swap (v other : Nat)

abbrev Vectors : Type := Nat → StringVector

/-- The bytes of the string that is passed, once there is a place for it. A string of the vector itself
is read where it was before, if the block is still there. -/
def argument (vs : Vectors) (v : Nat) (v' : StringVector) : Arg → Option (List Nat)
  | .bytes str => some str
  | .element w index =>
    if w = v then if v'.block = (vs v).block then v'.stringAt index else none else (vs w).stringAt index

def insertAt (alloc : Alloc) (vs : Vectors) (v index : Nat) (str : Arg) : Option Vectors :=
  ((vs v).emplace alloc index).bind fun v' =>
    (argument vs v v' str).bind fun str => (v'.setString index str).map fun v' => update vs v v'

/-- `StringVector::swap`. The strings are in the blocks they were in, and there is nothing to adjust in
them: the slices are compared with each other's block. -/
def swapVectors (vs : Vectors) (v other : Nat) : Vectors :=
  let mine := vs v
  let theirs := vs other
  let adjusted (u : StringVector) (block : Nat) : StringVector :=
    { u with strings := adjustMovedSlice ⟨block, 0⟩ ⟨u.block, 0⟩ u.size u.strings }
  update (update vs other (adjusted mine theirs.block)) v (adjusted theirs mine.block)

def call (alloc : Alloc) (vs : Vectors) : Call → Option Vectors
  | .append v str => insertAt alloc vs v (vs v).size str
  | .prepend v str => insertAt alloc vs v 0 str
  | .insert v index str => insertAt alloc vs v index str
  | .remove v index => ((vs v).remove index).map fun v' => update vs v v'
  | .resize v newSize => ((vs v).resize alloc newSize).map fun v' => update vs v v'
  | .reserve v newSize => ((vs v).reserve alloc newSize).map fun v' => update vs v v'
  | .assign v other =>
    ((vs v).assign alloc (if other = v then none else some (vs other))).map fun v' => update vs v v'
  | .swap v other => some (swapVectors vs v other)

structure Traced where
  vectors : Vectors
  lists : Nat → List (List Nat)

def argValue (lists : Nat → List (List Nat)) : Arg → List Nat
  | .bytes str => str
  | .element w index => (lists w).getD index []

def specNext (lists : Nat → List (List Nat)) : Call → Nat → List (List Nat)
  | .append v str => update lists v (lists v ++ [argValue lists str])
  | .prepend v str => update lists v (argValue lists str :: lists v)
  | .insert v index str => update lists v ((lists v).insertIdx index (argValue lists str))
  | .remove v index => update lists v ((lists v).eraseIdx index)
  | .resize v newSize =>
    update lists v ((lists v).take newSize ++ replicate (newSize - (lists v).length) [])
  | .reserve _ _ => lists
  | .assign v other => update lists v (lists other)
  | .swap v other => update (update lists other (lists v)) v (lists other)

def InDomain (s : Traced) : Call → Prop
  | .append _ str | .prepend _ str => ArgIn s str
  | .insert v index str => index ≤ (s.vectors v).size ∧ ArgIn s str
  | _ => True
where
  ArgIn (s : Traced) : Arg → Prop
    | .bytes _ => True
    | .element w index => index < (s.vectors w).size

/-- `PodVectorBase::resize` leaves the block as it is. -/
def KeepsBlock (v : StringVector) (newSize : Nat) : Prop := newSize ≤ v.capacity ∧ ¬ v.Shrinks newSize

/-- A string of size 0 that is all zero or has its pointer to itself. -/
def IsEmpty (self : Addr) (s : Str) : Prop := s.mSize = 0 ∧ (s.mStr = .null ∨ s.mStr = .storage self)

/-- Finalizing does not change the bytes of a string. -/
def Unharmed (self : Addr) (s : Str) : Prop := s.mSize = 0 ∨ s.mStr.isStorage self = true ∧ s.mStorage 0 = 0

/-- A string of the vector itself is inserted only behind its own place, and where the block is kept. -/
def ArgMeets (vs : Vectors) (v index : Nat) : Arg → Prop
  | .bytes _ => True
  | .element w i => w = v → i < index ∧ KeepsBlock (vs v) ((vs v).size + 1)

def Meets (vs : Vectors) : Call → Prop
  | .append v str => ArgMeets vs v (vs v).size str
  | .prepend v str => ArgMeets vs v 0 str
  | .insert v index str => ArgMeets vs v index str
  | .remove v index =>
    index < (vs v).size → (vs v).size < (vs v).capacity ∧ (index = 0 ∨ Unharmed ⟨(vs v).block, 0⟩ ((vs v).strings 0))
  | .resize v newSize =>
    KeepsBlock (vs v) newSize → ∀ j, (vs v).size ≤ j → j < newSize → IsEmpty ⟨(vs v).block, j⟩ ((vs v).strings j)
  | .reserve v newSize => (vs v).size ≤ newSize
  | .assign v other => other = v → (vs v).size = 0
  | .swap _ _ => True

def Calls (s : Traced) (c : Call × Alloc) (s' : Traced) : Prop :=
  InDomain s c.1 ∧ call c.2 s.vectors c.1 = some s'.vectors ∧ s'.lists = specNext s.lists c.1

def Starts (s : Traced) : Prop := s = ⟨fun _ => .empty, fun _ => []⟩

def Right (s : Traced) : Prop := ∀ v, (s.vectors v).contents = some (s.lists v)

/-! ### Vectors in order -/

structure Shows (v : StringVector) (l : List (List Nat)) : Prop where
  room : l.length ≤ v.capacity
  strings : ∀ i str, l[i]? = some str → Holds ⟨v.block, i⟩ (v.strings i) str

structure Represents (v : StringVector) (l : List (List Nat)) : Prop extends Shows v l where
  size : v.size = l.length

theorem represents_empty : Represents .empty [] := ⟨⟨le_refl 0, fun _ _ h => absurd h nofun⟩, rfl⟩

variable {str : List Nat}

theorem lt_of_getElem? (h : l[i]? = some str) : i < l.length :=
  (List.getElem?_eq_some_iff.mp h).1

section Vectors
variable {v : StringVector}

theorem Shows.stringAt (h : Shows v l) (hi : l[i]? = some str) : v.stringAt i = some str := by
  rw [StringVector.stringAt, if_pos (lt_of_lt_of_le (lt_of_getElem? hi) h.room)]
  exact (h.strings i str hi).bytes_eq

theorem mapM_range {f : Nat → Option (List Nat)}
    (h : ∀ i str, l[i]? = some str → f i = some str) : (range l.length).mapM f = some l := by
  induction l using reverseRecOn with
  | nil => rfl
  | append_singleton l str ih =>
    have hlast : f l.length = some str := h l.length str (by simp)
    have hinit : (range l.length).mapM f = some l := by
      apply ih
      intro i s hi
      apply h
      rw [getElem?_append_left (lt_of_getElem? hi)]
      exact hi
    rw [length_append, length_singleton, range_succ, mapM_append, hinit]
    simp [hlast]

theorem Represents.contents_eq (h : Represents v l) : v.contents = some l := by
  rw [contents, h.size]
  exact mapM_range fun i str hi => h.stringAt hi

/-! ### Moving the block -/

theorem Shows.adjust (h : Shows v l) (hsame : ∀ i < l.length, v'.strings i = v.strings i)
    (hroom : l.length ≤ v'.capacity) (hcount : l.length ≤ count) : Shows (v'.adjust v.block count) l := by
  rw [StringVector.adjust]
  split
  · rename_i hblock
    refine ⟨hroom, fun i str hi => ?_⟩
    rw [hsame i (lt_of_getElem? hi), ← hblock]
    exact h.strings i str hi
  refine ⟨hroom, fun i str hi => ?_⟩
  have hlt := lt_of_getElem? hi
  show Holds _ (adjustMovedSlice _ _ _ _ i) str
  rw [adjustMovedSlice, if_pos ⟨zero_le i, by show i < 0 + count; omega⟩, hsame i hlt]
  simp only [zero_add]
  exact (h.strings i str hi).adjust

theorem adjust_zero {block j : Nat} (hj : v.strings j = zero) : (v.adjust block count).strings j = zero := by
  rw [adjust]
  split
  · exact hj
  show adjustMovedSlice _ _ _ _ j = zero
  rw [adjustMovedSlice, hj]
  split
  · exact if_neg Bool.false_ne_true
  · rfl

theorem adjust_same (count : Nat) : v.adjust v.block count = v := if_pos rfl

theorem adjust_size (block count : Nat) : (v.adjust block count).size = v.size := by
  rw [adjust]
  split <;> rfl

theorem adjust_capacity (block count : Nat) : (v.adjust block count).capacity = v.capacity := by
  rw [adjust]
  split <;> rfl

theorem podReserve_same (alloc : Alloc) (hroom : v.size ≤ v.capacity) {newSize : Nat} (hi : i < v.size)
    (hnew : i < newSize) : (v.podReserve alloc newSize).strings i = v.strings i := by
  rw [podReserve, if_neg (by omega)]
  simp only [show ¬ (v.size ≤ i ∧ i < alloc.usable newSize) by omega, if_false]
  exact if_pos ⟨hnew, by omega⟩

theorem podReserve_zero (alloc : Alloc) {newSize : Nat} (hi : v.size ≤ i) (hnew : i < newSize) :
    (v.podReserve alloc newSize).strings i = zero := by
  have husable := alloc.le_usable newSize
  rw [podReserve, if_neg (by omega)]
  exact if_pos ⟨hi, by omega⟩

theorem le_capacity_podReserve (alloc : Alloc) (newSize : Nat) : newSize ≤ (v.podReserve alloc newSize).capacity := by
  rw [podReserve]
  split
  · omega
  · exact alloc.le_usable newSize

/-- `PodVectorBase::resize` either keeps the block, or copies the strings to one that is zero behind them. -/
theorem podResize_cases (alloc : Alloc) (v : StringVector) (newSize : Nat) :
    (KeepsBlock v newSize ∧ v.podResize alloc newSize = { v with size := newSize }) ∨
    (¬ KeepsBlock v newSize ∧ ∃ m, newSize ≤ m ∧
      v.podResize alloc newSize = { v.podReserve alloc m with size := newSize }) := by
  rw [podResize]
  by_cases hlt : newSize < v.capacity
  · by_cases hshrink : v.Shrinks newSize
    · exact .inr ⟨fun h => h.2 hshrink, newSize, le_rfl, by simp [if_pos hlt, if_pos hshrink]⟩
    · exact .inl ⟨⟨hlt.le, hshrink⟩, by simp [if_pos hlt, if_neg hshrink]⟩
  by_cases hgt : v.capacity < newSize
  · refine .inr ⟨fun h => absurd h.1 (by omega), _, le_grow newSize v.capacity, ?_⟩
    simp [if_neg hlt, if_pos hgt]
  · refine .inl ⟨⟨by omega, fun h => absurd h.1 (by omega)⟩, ?_⟩
    simp [if_neg hlt, if_neg hgt]

section
variable (h : Represents v l)
include h

/-- What is in front of the new size is as it was; nothing is finalized if the vector does not get
smaller. -/
theorem Represents.cutOff (newSize : Nat) :
    ∃ strings, v.cutOff newSize = some { v with strings := strings } ∧ (∀ j < newSize, strings j = v.strings j) ∧
      (v.size ≤ newSize → strings = v.strings) := by
  rw [StringVector.cutOff]
  split
  · rename_i hlt
    have hall : ∀ n < v.size - newSize, ∃ str, Holds ⟨v.block, newSize + n⟩ (v.strings (newSize + n)) str := by
      intro n hn
      have hlen := h.size
      exact ⟨_, h.strings (newSize + n) _ (getElem?_eq_getElem (by omega))⟩
    obtain ⟨strings, hfinal, hsame⟩ := finalizeSlice_some hall
    exact ⟨strings, by rw [hfinal, map_some], fun j hj => hsame j (.inl hj), fun hle => absurd hle (by omega)⟩
  · exact ⟨v.strings, rfl, fun _ _ => rfl, fun _ => rfl⟩

/-! ### The calls -/

/-- `resize` keeps the first strings. The others are what was in the block, or all zero. -/
theorem Represents.resize (alloc : Alloc) (newSize : Nat) :
    ∃ v', v.resize alloc newSize = some v' ∧ v'.size = newSize ∧ newSize ≤ v'.capacity ∧ Shows v' (l.take newSize) ∧
      (KeepsBlock v newSize → v'.block = v.block ∧ ∀ j, v.size ≤ j → j < newSize → v'.strings j = v.strings j) ∧
      (¬ KeepsBlock v newSize → ∀ j, v.size ≤ j → j < newSize → v'.strings j = zero) := by
  have hroom : v.size ≤ v.capacity := h.size ▸ h.room
  have hlen := h.size
  obtain ⟨strings, hcut, hsame, hall⟩ := h.cutOff newSize
  have hshows : Shows v (l.take newSize) := by
    refine ⟨(length_take_le' _ _).trans h.room, fun i str hi => ?_⟩
    rw [getElem?_take] at hi
    split at hi
    · exact h.strings i str hi
    · exact absurd hi nofun
  have htake : (l.take newSize).length = min newSize l.length := length_take
  rw [StringVector.resize, hcut, map_some]
  refine ⟨_, rfl, ?_⟩
  rw [adjust_size, adjust_capacity]
  -- whether a block is kept does not depend on the strings
  obtain ⟨hkeeps, heq⟩ | ⟨hkeeps, m, hm, heq⟩ := podResize_cases alloc { v with strings := strings } newSize
  · rw [heq]
    refine ⟨rfl, hkeeps.1, hshows.adjust (fun i hi => hsame i (by omega)) (by show _ ≤ v.capacity; omega) (by omega),
      fun _ => ?_, fun hnot => absurd hkeeps hnot⟩
    refine ⟨by rw [adjust_same], fun j hj hj' => ?_⟩
    rw [adjust_same]
    exact congrFun (hall (by omega)) j
  rw [heq]
  have hcap := le_capacity_podReserve (v := { v with strings := strings }) alloc m
  refine ⟨rfl, hm.trans hcap, hshows.adjust (fun i hi => ?_) ?_ (by omega), fun hk => absurd hk hkeeps,
    fun _ j hj hj' => adjust_zero ?_⟩
  · exact (podReserve_same (v := { v with strings := strings }) alloc hroom (by show i < v.size; omega)
      (by omega)).trans (hsame i (by omega))
  · exact le_trans (by omega) (hm.trans hcap)
  · exact podReserve_zero (v := { v with strings := strings }) alloc hj (by omega)

/-- `resize` of a vector whose block is zero, or has empty strings, where it gets strings back. -/
theorem Represents.resize_padded (alloc : Alloc) (newSize : Nat)
    (hempty : KeepsBlock v newSize → ∀ j, v.size ≤ j → j < newSize → IsEmpty ⟨v.block, j⟩ (v.strings j)) :
    ∃ v', v.resize alloc newSize = some v' ∧ Represents v' (l.take newSize ++ replicate (newSize - l.length) []) := by
  obtain ⟨v', hresize, hsize, hcap, hshows, hkept, hzero⟩ := h.resize alloc newSize
  have hlen : (l.take newSize ++ replicate (newSize - l.length) ([] : List Nat)).length = newSize := by
    rw [length_append, length_take, length_replicate]
    omega
  have hold := h.size
  have hpad : ∀ j, v.size ≤ j → j < newSize → Holds ⟨v'.block, j⟩ (v'.strings j) [] := by
    intro j hj hj'
    by_cases hkeeps : KeepsBlock v newSize
    · obtain ⟨hblock, hstrings⟩ := hkept hkeeps
      obtain ⟨hnil, hnull | hself⟩ := hempty hkeeps j hj hj'
      · rw [hstrings j hj hj']
        exact .null hnull hnil rfl
      · rw [hstrings j hj hj', hblock]
        exact .short hself hnil (zero_le _) rfl
    · rw [hzero hkeeps j hj hj']
      exact holds_zero _
  refine ⟨v', hresize, ⟨by omega, fun i str hi => ?_⟩, by omega⟩
  rw [getElem?_append] at hi
  split at hi
  · exact hshows.strings i str hi
  rename_i hout
  rw [length_take] at hout hi
  rw [getElem?_replicate] at hi
  split at hi
  · obtain rfl := some.inj hi
    exact hpad i (by omega) (by omega)
  · exact absurd hi nofun

theorem Represents.reserve (alloc : Alloc) {newSize : Nat} (hnew : v.size ≤ newSize) :
    ∃ v', v.reserve alloc newSize = some v' ∧ Represents v' l := by
  have hlen := h.size
  have hroom : v.size ≤ v.capacity := h.size ▸ h.room
  obtain ⟨strings, hcut, -, hall⟩ := h.cutOff newSize
  obtain rfl := hall hnew
  refine ⟨_, by rw [StringVector.reserve, hcut, map_some], ⟨h.toShows.adjust ?_ ?_ (by omega), ?_⟩⟩
  · exact fun i hi => podReserve_same alloc hroom (by omega) (by omega)
  · exact (hlen ▸ hnew).trans (le_capacity_podReserve alloc newSize)
  · rw [adjust_size, podReserve]
    split
    · show 0 = l.length
      omega
    · exact hlen

theorem Represents.reserve_zero (alloc : Alloc) :
    ∃ v', v.reserve alloc 0 = some v' ∧ v'.capacity = 0 ∧ Represents v' [] := by
  obtain ⟨strings, hcut, -, -⟩ := h.cutOff 0
  refine ⟨_, by rw [StringVector.reserve, hcut, map_some], ?_, ⟨?_, fun _ _ hi => absurd hi nofun⟩, ?_⟩
  · rw [adjust_capacity]
    rfl
  · exact zero_le _
  · rw [adjust_size]
    rfl

theorem Represents.remove (index : Nat)
    (hmeets : index < v.size → v.size < v.capacity ∧ (index = 0 ∨ Unharmed ⟨v.block, 0⟩ (v.strings 0))) :
    ∃ v', v.remove index = some v' ∧ Represents v' (l.eraseIdx index) := by
  have hlen := h.size
  by_cases hindex : index < v.size
  · obtain ⟨hcap, hfirst⟩ := hmeets hindex
    have hzero := h.strings 0 _ (getElem?_eq_getElem (by omega))
    obtain ⟨s, hs, hkeep⟩ := hzero.reserve_zero
    have hfinal : finalizeSlice v.block 0 1 v.strings = some (update v.strings 0 s) := by
      rw [finalizeSlice, add_zero, hs, bind_some, finalizeSlice]
    have hbounds : index + 1 + (v.size - index) ≤ v.capacity ∧ index + (v.size - index) ≤ v.capacity := by omega
    refine ⟨_, by
      rw [StringVector.remove, if_neg (by omega), hfinal, bind_some, StringVector.move, if_pos hbounds,
        map_some], ⟨?_, fun i str hi => ?_⟩, ?_⟩
    · show (l.eraseIdx index).length ≤ v.capacity
      rw [length_eraseIdx]
      split <;> omega
    · have hlt := lt_of_getElem? hi
      rw [length_eraseIdx, if_pos (by omega)] at hlt
      rw [getElem?_eraseIdx] at hi
      show Holds _ (moveSlice v.block (update v.strings 0 s) (index + 1) index (v.size - index) i) str
      split at hi
      · -- in front of the string that is removed
        rename_i hfront
        rw [moveSlice_other (by omega)]
        obtain rfl | hi0 := Nat.eq_zero_or_pos i
        · rw [update_self]
          rw [getElem?_eq_getElem (by omega)] at hi
          obtain rfl := some.inj hi
          exact hkeep (hfirst.resolve_left (by omega))
        · rw [update_of_ne (by omega)]
          exact h.strings i str hi
      · apply moveSlice_moved (by omega)
        rw [show index + 1 + (i - index) = i + 1 by omega, update_of_ne (by omega)]
        exact h.strings (i + 1) str hi
    · show v.size - 1 = (l.eraseIdx index).length
      rw [length_eraseIdx, if_pos (by omega)]
      omega
  · refine ⟨v, if_pos (by omega), ?_⟩
    rw [eraseIdx_of_length_le (by omega)]
    exact h

theorem Represents.emplace (alloc : Alloc) (hindex : index ≤ v.size) :
    ∃ v', v.emplace alloc index = some v' ∧ Represents v' (l.insertIdx index []) ∧ v'.strings index = zero ∧
      (KeepsBlock v (v.size + 1) → v'.block = v.block) := by
  have hlen := h.size
  obtain ⟨v', hresize, hsize, hcap, hshows, hkept, -⟩ := h.resize alloc (v.size + 1)
  rw [take_of_length_le (by omega)] at hshows
  have hbounds : index + (v.size - index) ≤ v'.capacity ∧ index + 1 + (v.size - index) ≤ v'.capacity := by omega
  let moved := moveSlice v'.block v'.strings index (index + 1) (v.size - index)
  refine ⟨{ v' with strings := update moved index zero }, ?_,
    ⟨⟨?_, fun i str hi => ?_⟩, ?_⟩, update_self .., fun hkeeps => (hkept hkeeps).1⟩
  · rw [StringVector.emplace, hresize, bind_some, StringVector.move, if_pos hbounds, map_some]
  · show (l.insertIdx index []).length ≤ v'.capacity
    rw [length_insertIdx]
    split <;> omega
  · show Holds _ (update moved index zero i) str
    rw [getElem?_insertIdx] at hi
    split at hi
    · have hfront : moved i = v'.strings i := moveSlice_other (by omega)
      rw [update_of_ne (by omega), hfront]
      exact hshows.strings i str hi
    split at hi
    · rename_i heq
      rw [if_pos (by omega)] at hi
      obtain rfl := some.inj hi
      rw [heq, update_self]
      exact holds_zero _
    have hlt := lt_of_getElem? hi
    rw [update_of_ne (by omega)]
    apply moveSlice_moved (by omega)
    rw [show index + (i - (index + 1)) = i - 1 by omega]
    exact hshows.strings (i - 1) str hi
  · show v'.size = (l.insertIdx index []).length
    rw [length_insertIdx, if_pos (by omega), hsize, hlen]

end

theorem setString_zero (hzero : v.strings index = zero) (str : List Nat) :
    ∃ s, v.setString index str = some { v with strings := update v.strings index s } ∧
      Holds ⟨v.block, index⟩ s str := by
  obtain ⟨s, hassign, hs⟩ := assign_zero ⟨v.block, index⟩ str
  exact ⟨s, by rw [setString, hzero, hassign, map_some], hs⟩

theorem Shows.set (h : Shows v l) {s : Str} (hs : Holds ⟨v.block, index⟩ s str)
    (hroom : l'.length ≤ v.capacity) (hself : ∀ x, l'[index]? = some x → x = str)
    (hother : ∀ i ≠ index, ∀ x, l'[i]? = some x → l[i]? = some x) :
    Shows { v with strings := update v.strings index s } l' := by
  refine ⟨hroom, fun i x hi => ?_⟩
  show Holds _ (update v.strings index s i) x
  obtain rfl | hne := eq_or_ne i index
  · rw [update_self, hself x hi]
    exact hs
  · rw [update_of_ne hne]
    exact h.strings i x (hother i hne x hi)

theorem Represents.setString (h : Represents v (l.insertIdx index [])) (hindex : index ≤ l.length)
    (hzero : v.strings index = zero) (str : List Nat) :
    ∃ v', v.setString index str = some v' ∧ Represents v' (l.insertIdx index str) := by
  obtain ⟨s, hset, hs⟩ := setString_zero hzero str
  have hlen : (l.insertIdx index str).length = (l.insertIdx index []).length := by
    rw [length_insertIdx, length_insertIdx]
  refine ⟨_, hset, h.toShows.set hs (hlen ▸ h.room) (fun x hi => ?_) fun i hne x hi => ?_, h.size.trans hlen.symm⟩
  · rw [getElem?_insertIdx_self, if_pos hindex] at hi
    exact (some.inj hi).symm
  · rw [getElem?_insertIdx] at hi ⊢
    simpa only [if_neg hne] using hi

variable {other : StringVector}

theorem assignLoop_shows (hother : Shows other l) {n : Nat} (hn : n ≤ l.length)
    (hroom : l.length ≤ v.capacity) (hzero : ∀ j < l.length, v.strings j = zero) :
    ∃ v', assignLoop other n v = some v' ∧ v'.size = v.size ∧ v'.capacity = v.capacity ∧
      Shows v' (l.take n) ∧ ∀ j, n ≤ j → j < l.length → v'.strings j = zero := by
  induction n with
  | zero => exact ⟨v, rfl, rfl, rfl, ⟨zero_le _, fun _ _ hi => absurd hi nofun⟩, fun j _ hj => hzero j hj⟩
  | succ n ih =>
    obtain ⟨v', hloop, hsize, hcap, hshows, hrest⟩ := ih (by omega)
    have hstr : l[n]? = some l[n] := getElem?_eq_getElem hn
    obtain ⟨s, hset, hs⟩ := setString_zero (hrest n le_rfl hn) l[n]
    refine ⟨{ v' with strings := update v'.strings n s }, ?_, hsize, hcap,
      hshows.set hs ?_ (fun x hi => ?_) fun i hne x hi => ?_, fun j hj hj' => ?_⟩
    · rw [assignLoop, hloop, bind_some, hother.stringAt hstr, bind_some, hset]
    · rw [length_take]
      omega
    · rw [getElem?_take, if_pos (lt_succ_self n), hstr] at hi
      exact (some.inj hi).symm
    · rw [getElem?_take] at hi ⊢
      split at hi
      · rwa [if_pos (by omega)]
      · exact absurd hi nofun
    · show update v'.strings n s j = zero
      rw [update_of_ne (by omega)]
      exact hrest j (by omega) hj'

theorem Represents.assign (h : Represents v l) (hother : Represents other l') (alloc : Alloc) :
    ∃ v', v.assign alloc (some other) = some v' ∧ Represents v' l' := by
  obtain ⟨v₁, hreserve, hcap₁, h₁⟩ := h.reserve_zero alloc
  have hlen := hother.size
  obtain ⟨v₂, hresize, hsize₂, hcap₂, -, -, hzero₂⟩ := h₁.resize alloc other.size
  have hzero : ∀ j < l'.length, v₂.strings j = zero := by
    intro j hj
    apply hzero₂ _ j (by rw [h₁.size]; exact zero_le j) (by omega)
    intro hkeeps
    have := hkeeps.1
    omega
  obtain ⟨v₃, hloop, hsize₃, -, hshows, -⟩ := assignLoop_shows hother.toShows le_rfl (by omega) hzero
  rw [take_of_length_le le_rfl] at hshows
  refine ⟨v₃, ?_, hshows, by omega⟩
  rw [StringVector.assign, hreserve, bind_some]
  simp only [getD_some]
  rw [hresize, bind_some, hlen, hloop]

theorem Represents.assign_self (h : Represents v []) (alloc : Alloc) :
    ∃ v', v.assign alloc none = some v' ∧ Represents v' [] := by
  obtain ⟨v₁, hreserve, -, h₁⟩ := h.reserve_zero alloc
  obtain ⟨v₂, hresize, hsize₂, -, hshows, -, -⟩ := h₁.resize alloc v₁.size
  rw [take_nil] at hshows
  have hsize : v₁.size = 0 := h₁.size
  refine ⟨v₂, ?_, hshows, by rw [hsize₂]; exact h₁.size⟩
  rw [StringVector.assign, hreserve, bind_some]
  simp only [getD_none]
  rw [hresize, bind_some, hsize]
  rfl

/-- Strings that are in order in their block stay so when their pointers are compared with another. -/
theorem Represents.adjust_other (h : Represents v l) (block : Nat) :
    Represents { v with strings := adjustMovedSlice ⟨block, 0⟩ ⟨v.block, 0⟩ v.size v.strings } l := by
  have hlen := h.size
  refine ⟨⟨h.room, fun i str hi => ?_⟩, hlen⟩
  have hlt := lt_of_getElem? hi
  show Holds _ (adjustMovedSlice _ _ _ _ i) str
  rw [adjustMovedSlice, if_pos ⟨zero_le i, by show i < 0 + v.size; omega⟩]
  exact (h.strings i str hi).setStorage _

end Vectors

/-! ### All vectors -/

def AllRepresent (vs : Vectors) (lists : Nat → List (List Nat)) : Prop := ∀ v, Represents (vs v) (lists v)

section Calls
variable {vs : Vectors} {lists : Nat → List (List Nat)}

section
variable (h : AllRepresent vs lists)
include h

theorem AllRepresent.update (hv : Represents v' l) : AllRepresent (update vs v v') (update lists v l) := by
  intro w
  obtain rfl | hne := eq_or_ne w v
  · rw [update_self, update_self]
    exact hv
  · rw [update_of_ne hne, update_of_ne hne]
    exact h w

theorem AllRepresent.argument {str : Arg} (hin : InDomain.ArgIn ⟨vs, lists⟩ str) (hmeets : ArgMeets vs v index str)
    (hv' : Represents v' ((lists v).insertIdx index []))
    (hblock : KeepsBlock (vs v) ((vs v).size + 1) → v'.block = (vs v).block) :
    argument vs v v' str = some (argValue lists str) := by
  cases str with
  | bytes str => rfl
  | element w i =>
    have hi : (lists w)[i]? = some ((lists w).getD i []) := by
      have hlt : i < (lists w).length := (h w).size ▸ hin
      rw [getD_eq_getElem?_getD, getElem?_eq_getElem hlt, getD_some]
    rw [Strings.argument]
    split
    · rename_i hself
      subst hself
      obtain ⟨hfront, hkeeps⟩ := hmeets rfl
      rw [if_pos (hblock hkeeps)]
      apply hv'.stringAt
      rw [getElem?_insertIdx, if_pos hfront]
      exact hi
    · exact (h w).stringAt hi

theorem AllRepresent.insertAt (alloc : Alloc) {str : Arg}
    (hindex : index ≤ (vs v).size) (hin : InDomain.ArgIn ⟨vs, lists⟩ str) (hmeets : ArgMeets vs v index str) :
    ∃ vs', insertAt alloc vs v index str = some vs' ∧
      AllRepresent vs' (Function.update lists v ((lists v).insertIdx index (argValue lists str))) := by
  obtain ⟨v', hemplace, hv', hzero, hblock⟩ := (h v).emplace alloc hindex
  obtain ⟨v'', hset, hv''⟩ := hv'.setString ((h v).size ▸ hindex) hzero (argValue lists str)
  refine ⟨_, ?_, h.update hv''⟩
  rw [Strings.insertAt, hemplace, bind_some, h.argument hin hmeets hv' hblock, bind_some, hset, map_some]

/-- A call that meets the condition returns, and does to the vectors what it is to do to the lists. -/
theorem call_right (alloc : Alloc) {c : Call} (hin : InDomain ⟨vs, lists⟩ c)
    (hmeets : Meets vs c) : ∃ vs', call alloc vs c = some vs' ∧ AllRepresent vs' (specNext lists c) := by
  cases c with
  | append v str =>
    obtain ⟨vs', hcall, hvs'⟩ := h.insertAt alloc le_rfl hin hmeets
    rw [(h v).size, insertIdx_length_self] at hvs'
    exact ⟨vs', hcall, hvs'⟩
  | prepend v str => exact h.insertAt alloc (zero_le _) hin hmeets
  | insert v index str => exact h.insertAt alloc hin.1 hin.2 hmeets
  | remove v index =>
    obtain ⟨v', hremove, hv'⟩ := (h v).remove index hmeets
    exact ⟨_, by rw [call, hremove, map_some], h.update hv'⟩
  | resize v newSize =>
    obtain ⟨v', hresize, hv'⟩ := (h v).resize_padded alloc newSize hmeets
    exact ⟨_, by rw [call, hresize, map_some], h.update hv'⟩
  | reserve v newSize =>
    obtain ⟨v', hreserve, hv'⟩ := (h v).reserve alloc hmeets
    refine ⟨_, by rw [call, hreserve, map_some], ?_⟩
    have hall := h.update (v := v) hv'
    rw [update_eq_self] at hall
    exact hall
  | assign v other =>
    by_cases hself : other = v
    · subst hself
      have hnil : lists other = [] := length_eq_zero_iff.mp ((h other).size.symm.trans (hmeets rfl))
      obtain ⟨v', hassign, hv'⟩ := (hnil ▸ h other).assign_self alloc
      refine ⟨_, by rw [call, if_pos rfl, hassign, map_some], ?_⟩
      rw [← hnil] at hv'
      exact h.update hv'
    · obtain ⟨v', hassign, hv'⟩ := (h v).assign (h other) alloc
      exact ⟨_, by rw [call, if_neg hself, hassign, map_some], h.update hv'⟩
  | swap v other =>
    exact ⟨_, rfl, (h.update ((h v).adjust_other _)).update ((h other).adjust_other _)⟩

end

end Calls

/-- In a run whose calls meet the condition, every vector has the strings of its list, and the next
call that meets it returns. -/
theorem strings_right {s : Traced} (h : Reach Starts (fun s c s' => Meets s.vectors c.1 ∧ Calls s c s') s) :
    Right s ∧ ∀ c : Call × Alloc, InDomain s c.1 → Meets s.vectors c.1 → ∃ s', Calls s c s' := by
  have hall : AllRepresent s.vectors s.lists := by
    apply h.invariant
    · intro s hs v
      rw [hs]
      exact represents_empty
    · intro s c s' hright ⟨hmeets, hin, hcall, hlists⟩
      obtain ⟨vs', hcall', hvs'⟩ := call_right hright c.2 hin hmeets
      obtain rfl := some.inj (hcall.symm.trans hcall')
      rw [hlists]
      exact hvs'
  refine ⟨fun v => (hall v).contents_eq, fun c hin hmeets => ?_⟩
  obtain ⟨vs', hcall, -⟩ := call_right hall c.2 hin hmeets
  exact ⟨⟨vs', _⟩, hin, hcall, rfl⟩

/-- An allocator that gives what is asked for, always in the same place. -/
def plainAlloc : Alloc := ⟨1, id, fun _ => zero, fun _ => le_rfl⟩

def next (s : Traced) (c : Call) : Traced := ⟨(call plainAlloc s.vectors c).getD s.vectors, specNext s.lists c⟩

theorem calls_next {s : Traced} {c : Call} (hin : InDomain s c) (hcall : (call plainAlloc s.vectors c).isSome = true) :
    Calls s (c, plainAlloc) (next s c) := by
  obtain ⟨vs, hvs⟩ := isSome_iff_exists.mp hcall
  exact ⟨hin, by rw [next, hvs, getD_some], rfl⟩

def oneString : Traced := next ⟨fun _ => .empty, fun _ => []⟩ (.append 0 (.bytes [0x61]))

def twoStrings : Traced := next oneString (.append 0 (.bytes [0x62]))

/-- The first of the two is removed. -/
def secondString : Traced := next twoStrings (.remove 0 0)

/-- The vector is then resized, within its capacity. -/
theorem secondString_right : Right secondString ∧ Right (next secondString (.resize 0 2)) := by
  have hsecond : Reach Starts (fun s c s' => Meets s.vectors c.1 ∧ Calls s c s') secondString :=
    .step (a := (.remove 0 0, plainAlloc))
      (.step (a := (.append 0 (.bytes [0x62]), plainAlloc))
        (.step (a := (.append 0 (.bytes [0x61]), plainAlloc)) (.start rfl) ⟨trivial, calls_next trivial (by decide)⟩)
        ⟨trivial, calls_next trivial (by decide)⟩)
      ⟨fun _ => ⟨by decide, .inl rfl⟩, calls_next trivial (by decide)⟩
  refine ⟨(strings_right hsecond).1, (strings_right (.step (a := (.resize 0 2, plainAlloc)) hsecond ⟨?_, ?_⟩)).1⟩
  · intro _ j hsize hj
    have hone : (secondString.vectors 0).size = 1 := by decide
    obtain rfl : j = 1 := by omega
    exact ⟨by decide, .inl rfl⟩
  · exact calls_next trivial (by decide)

/-- Removing `"b"` behind `"a"` puts a zero byte into the place of the `a`. A vector that is resized to no
string and back gets a string of one byte. -/
theorem strings_wrong :
    (∃ s, Reach Starts Calls s ∧ s.lists 0 = [[0x61]] ∧ (s.vectors 0).contents = some [[0]] ∧ ¬ Right s) ∧
      ∃ s, Reach Starts Calls s ∧ s.lists 0 = [[]] ∧ (s.vectors 0).contents = some [[0]] ∧ ¬ Right s := by
  have hone : Reach Starts Calls oneString := .step (.start rfl) (calls_next trivial (by decide))
  have htwo : Reach Starts Calls twoStrings := .step hone (calls_next trivial (by decide))
  have hnone : Reach Starts Calls (next oneString (.resize 0 0)) := .step hone (calls_next trivial (by decide))
  constructor
  · refine ⟨next twoStrings (.remove 0 1),
      .step htwo (calls_next trivial (by decide)), by decide, by decide, fun hright => ?_⟩
    exact absurd (hright 0) (by decide)
  · refine ⟨next (next oneString (.resize 0 0)) (.resize 0 1),
      .step hnone (calls_next trivial (by decide)), by decide, by decide, fun hright => ?_⟩
    exact absurd (hright 0) (by decide)

end GemDroid.Containers.Strings
