import GemDroid.Lib.Reach
import Mathlib.Algebra.Ring.Nat
import Mathlib.Data.List.GetD
import Mathlib.Logic.Function.Basic

/-! Lists of references (`android/utils/reflist.c`).

A list has `size` slots, `count` of which hold an item. An item that is alone is in the list
itself, where otherwise the address of the array is; `max` says which. Outside an iteration
`areflist_popLast` leaves a slot with `NULL` behind the items, and the next item is put behind that
slot, where the functions that count to `count` do not find it. -/
namespace GemDroid.Utils.RefList
open Lib Function List Nat

/-- The type `ARefList`. A reference of `NULL` is zero. `items` is the memory at
`_areflist_items`: the array, or `item0` where `max` is one. -/
structure ARefList (P : Type) where
  count : Nat
  size : Nat
  max : Nat
  iteration : Nat
  items : Nat → P

open ARefList

/-- Memory that is obtained: its address, and what is there. -/
structure Fresh (P : Type) where
  address : P
  content : Nat → P

variable {P : Type}

def init (items : Nat → P) : ARefList P := ⟨0, 0, 1, 0, items⟩

/-- The loop of `areflist_grow` that finds the new maximum. -/
def newMax (newcount : Nat) : Nat → Nat → Nat
  | 0, newmax => newmax
  | rounds + 1, newmax =>
    if newmax < newcount then newMax newcount rounds (newmax + (newmax / 2 + 4)) else newmax

/-- The maximum for one item more. -/
def ARefList.nextMax (l : ARefList P) : Nat :=
  newMax (l.size + 1) (l.size + 1) (if l.max = 1 then 0 else l.max)

/-- `areflist_grow` for one item. The maximum is kept in 16 bits; where one is left of it, the
address of the array is taken for the item. -/
def ARefList.grow (l : ARefList P) (fresh : Fresh P) : ARefList P :=
  if l.size + 1 > l.max then
    { l with
      max := l.nextMax % 65536
      items := fun i =>
        if l.nextMax % 65536 = 1 then fresh.address
        else if i < (if l.max = 1 then 1 else l.size) then l.items i
        else fresh.content i }
  else l

def pack (keep : P → Bool) (read : (Nat → P) → Nat → P) : Nat → Nat → Nat → (Nat → P) → Nat × (Nat → P)
  | 0, _, writePos, items => (writePos, items)
  | rounds + 1, readPos, writePos, items =>
    if keep (read items readPos) then
      pack keep read rounds (readPos + 1) (writePos + 1) (update items writePos (read items readPos))
    else pack keep read rounds (readPos + 1) writePos items

variable [DecidableEq P] [Zero P]

/-- The loop of `areflist_popLast`. -/
def lastBelow (items : Nat → P) : Nat → Option Nat
  | 0 => none
  | nn + 1 => if items nn ≠ 0 then some nn else lastBelow items nn

namespace ARefList

def checkSize0 (l : ARefList P) : ARefList P :=
  if l.size = 0 ∧ l.max > 1 then { l with max := 1, items := fun _ => 0 } else l

def setEmpty (l : ARefList P) : ARefList P :=
  if l.iteration > 0 then
    { l with items := fun i => if i < l.count then 0 else l.items i, iteration := l.iteration ||| 1, count := 0 }
  else { ({ l with size := 0 } : ARefList P).checkSize0 with count := 0 }

def indexOf (l : ARefList P) (item : P) : Int :=
  if item = 0 then -1
  else match (range l.count).find? fun i => l.items i = item with
    | some i => i
    | none => -1

def add (l : ARefList P) (item : P) (fresh : Fresh P) : ARefList P :=
  if item = 0 then l
  else
    let g := if l.size ≥ l.max then l.grow fresh else l
    { g with
      items := update g.items g.size item
      size := (g.size + 1) % 65536
      count := (g.count + 1) % 65536 }

def popLast (l : ARefList P) : P × ARefList P :=
  if l.count = 0 then (0, l)
  else match lastBelow l.items l.size with
    | none => (0, l)
    | some nn =>
      let popped := { l with count := l.count - 1, items := update l.items nn 0 }
      (l.items nn, if l.iteration = 0 then ({ popped with size := nn + 1 } : ARefList P).checkSize0 else popped)

def delFirst (l : ARefList P) (item : P) : Bool × ARefList P :=
  if item = 0 then (false, l)
  else if l.indexOf item < 0 then (false, l)
  else
    let index := (l.indexOf item).toNat
    (true, if l.iteration > 0 then
        { l with
          items := update l.items index 0
          iteration := l.iteration ||| 1
          count := l.count - 1 }
      else if l.max > 1 then
        ({ l with
          items := fun i => if index ≤ i ∧ i < l.size - 1 then l.items (i + 1) else l.items i
          size := l.size - 1
          count := l.count - 1 } : ARefList P).checkSize0
      else { l with items := fun _ => 0, size := 0, count := 0 })

def delAll (l : ARefList P) (item : P) : Bool × ARefList P :=
  if item = 0 then (false, l)
  else match (range l.size).find? fun i => l.items i = 0 ∨ l.items i = item with
    | none => (false, l)
    | some readPos =>
      let packed := pack (fun x => x ≠ 0 ∧ x ≠ item) (fun items => items) (l.size - readPos) readPos readPos l.items
      ((range' readPos (l.size - readPos)).any fun i => l.items i = item,
        ({ l with items := packed.2, count := packed.1 % 65536, size := packed.1 % 65536 } : ARefList P).checkSize0)

/-- `areflist_copy`: the list that the destination becomes. If the source is the destination, the
new array is read. The assertion is that all items were found. -/
def copy (src : ARefList P) (same : Bool) (fresh : Fresh P) : Option (ARefList P) :=
  if src.max > 1 then
    let packed := pack (fun x => x ≠ 0) (fun items => if same then items else src.items) src.size 0 0 fresh.content
    if packed.1 = src.count then
      some ({ src with max := src.count, items := packed.2, size := packed.1 } : ARefList P).checkSize0
    else none
  else some src

def get (l : ARefList P) (n : Int) : P :=
  if n < 0 ∨ l.count ≤ n then 0 else if l.max = 1 then l.items 0 else l.items n.toNat

end ARefList

def append (dst src : Nat) (fresh : Nat → Fresh P) : Nat → Nat → (Nat → ARefList P) → Nat → ARefList P
  | 0, _, lists => lists
  | rounds + 1, index, lists =>
    append dst src fresh rounds (index + 1)
      (update lists dst ((lists dst).add ((lists src).items index) (fresh index)))

/-! ### Packing -/

omit [DecidableEq P] [Zero P] in
theorem pack_spec (keep : P → Bool) {read : (Nat → P) → Nat → P} (orig : Nat → P) (Inv : Nat → (Nat → P) → Prop)
    (hread : ∀ i items, Inv i items → read items i = orig i) (hskip : ∀ i items, Inv i items → Inv (i + 1) items)
    (hwrite : ∀ i items w, w ≤ i → Inv i items → Inv (i + 1) (update items w (orig i))) (n r w : Nat)
    (items : Nat → P) (hwr : w ≤ r) (hinv : Inv r items) :
    (pack keep read n r w items).1 = w + (((range' r n).map orig).filter keep).length ∧
      (∀ i < w, (pack keep read n r w items).2 i = items i) ∧
      ∀ i (h : i < (((range' r n).map orig).filter keep).length),
        (pack keep read n r w items).2 (w + i) = (((range' r n).map orig).filter keep)[i] := by
  induction n generalizing r w items with
  | zero => exact ⟨rfl, fun _ _ => rfl, fun i h => absurd h (not_lt_zero i)⟩
  | succ n ih =>
    simp only [pack, range'_succ, map_cons, filter_cons, hread r items hinv]
    by_cases hkeep : keep (orig r)
    · obtain ⟨hlen, hbefore, hkept⟩ := ih (r + 1) (w + 1) (update items w (orig r)) (by omega)
        (hwrite r items w hwr hinv)
      simp only [hkeep, if_true, length_cons]
      refine ⟨by omega, fun i hi => ?_, fun i hi => ?_⟩
      · rw [hbefore i (by omega), update_of_ne (by omega)]
      · cases i with
        | zero => exact (hbefore w (by omega)).trans (update_self ..)
        | succ i => rw [getElem_cons_succ, ← hkept i (by omega), show w + (i + 1) = w + 1 + i by omega]
    · simp only [hkeep]
      exact ih (r + 1) w items (by omega) (hskip r items hinv)

/-! ### The list that the slots hold -/

/-- The slots hold `xs`, and `NULL` behind it. -/
structure Holds (l : ARefList P) (xs : List P) : Prop where
  iteration : l.iteration = 0
  count : l.count = xs.length
  bound : xs.length < 65536
  size : xs.length ≤ l.size
  room : l.max ≤ 1 → l.size ≤ l.max
  item : ∀ i (h : i < xs.length), l.items i = xs[i]
  hole : ∀ i, xs.length ≤ i → i < l.size → l.items i = 0
  nonnull : 0 ∉ xs

section Holds
variable {l : ARefList P} {xs : List P} {item : P}

omit [DecidableEq P] in
theorem holds_init (items : Nat → P) : Holds (init items) [] :=
  ⟨rfl, rfl, zero_lt_succ _, le_rfl, fun _ => zero_le _, fun i hi => absurd hi (not_lt_zero i),
    fun i _ hi => absurd hi (not_lt_zero i), not_mem_nil⟩

omit [DecidableEq P] in
theorem Holds.slots (h : Holds l xs) : (range l.size).map l.items = xs ++ replicate (l.size - xs.length) 0 := by
  have hsize := h.size
  apply ext_getElem
  · simp only [length_map, length_range, length_append, length_replicate]
    omega
  · intro i hi _
    simp only [length_map, length_range] at hi
    rw [getElem_map, getElem_range, getElem_append]
    split
    next hlt => exact h.item i hlt
    next hge => rw [getElem_replicate, h.hole i (by omega) hi]

omit [DecidableEq P] in
theorem Holds.checkSize0 [DecidableEq P] (h : Holds l xs) : Holds l.checkSize0 xs := by
  rw [ARefList.checkSize0]
  split
  next hempty =>
    have hsize := h.size
    have hnil : xs = [] := eq_nil_of_length_eq_zero (by omega)
    subst hnil
    exact ⟨h.iteration, h.count, h.bound, by simp, fun _ => by simp only; omega,
      fun i hi => absurd hi (not_lt_zero i), fun _ _ _ => rfl, h.nonnull⟩
  next => exact h

theorem Holds.setEmpty (h : Holds l xs) : Holds l.setEmpty [] := by
  have hempty : Holds ({ l with size := 0, count := 0 } : ARefList P) [] :=
    ⟨h.iteration, rfl, zero_lt_succ _, le_rfl, fun _ => zero_le _,
      fun i hi => absurd hi (not_lt_zero i), fun i _ hi => absurd hi (not_lt_zero i), not_mem_nil⟩
  have hcheck := hempty.checkSize0
  rw [ARefList.setEmpty, if_neg (by rw [h.iteration]; exact lt_irrefl 0)]
  unfold ARefList.checkSize0 at hcheck ⊢
  by_cases hmax : l.max > 1
  · rw [if_pos ⟨rfl, hmax⟩] at hcheck ⊢
    exact hcheck
  · rw [if_neg fun hfree => hmax hfree.2] at hcheck ⊢
    exact hcheck

theorem Holds.indexOf (h : Holds l xs) (item : P) :
    l.indexOf item = if item ∈ xs then (xs.idxOf item : Int) else -1 := by
  rw [ARefList.indexOf, h.count]
  by_cases hnull : item = 0
  · rw [if_pos hnull, if_neg (hnull ▸ h.nonnull)]
  rw [if_neg hnull]
  by_cases hmem : item ∈ xs
  · have hlt := idxOf_lt_length_iff.mpr hmem
    have hfind : (range xs.length).find? (fun i => l.items i = item) = some (xs.idxOf item) := by
      rw [find?_eq_some_iff_getElem]
      refine ⟨by simp [h.item _ hlt], xs.idxOf item, by simpa using hlt, by simp, fun j hj => ?_⟩
      have hne : xs[j] ≠ item := by
        intro he
        have hnot : (xs[j] == item) = false := not_of_lt_findIdx hj
        simp [he] at hnot
      simpa [h.item j (by omega)] using hne
    rw [hfind, if_pos hmem]
  · have hfind : (range xs.length).find? (fun i => l.items i = item) = none := by
      rw [find?_eq_none]
      intro i hi he
      have hi := mem_range.mp hi
      have he : l.items i = item := by simpa using he
      rw [h.item i hi] at he
      exact hmem (he ▸ getElem_mem hi)
    rw [hfind, if_neg hmem]

omit [DecidableEq P] in
theorem Holds.get [DecidableEq P] (h : Holds l xs) (n : Int) : l.get n = if n < 0 then 0 else xs.getD n.toNat 0 := by
  have hsize := h.size
  have hroom := h.room
  rw [ARefList.get, h.count]
  by_cases hneg : n < 0
  · rw [if_pos (Or.inl hneg), if_pos hneg]
  rw [if_neg hneg]
  by_cases hlt : n.toNat < xs.length
  · rw [if_neg (by omega), getD_eq_getElem _ _ hlt, ← h.item _ hlt]
    split
    next hmax => rw [show n.toNat = 0 by omega]
    next => rfl
  · rw [if_pos (by omega), getD_eq_default _ _ (by omega)]

/-- An item is added where no slot of an item that was taken is left, and where the maximum for
one item more is above one in 16 bits. -/
def AddMeets (l : ARefList P) (item : P) : Prop :=
  item ≠ 0 → l.count + 1 < 65536 ∧ l.size = l.count ∧ (l.size ≥ l.max → 1 < l.nextMax % 65536)

section
variable (h : Holds l xs)
include h

theorem Holds.add (fresh : Fresh P) (hmeets : AddMeets l item) :
    Holds (l.add item fresh) (if item = 0 then xs else xs ++ [item]) := by
  rw [ARefList.add]
  split
  next => exact h
  next hnull =>
    obtain ⟨hbound, hsize, hgrow⟩ := hmeets hnull
    have hcount := h.count
    -- the slots in use are the same after growing
    obtain ⟨g, hg, hgcount, hgsize, hgiter, hgmax, hgitems⟩ :
        ∃ g, (if l.size ≥ l.max then l.grow fresh else l) = g ∧ g.count = l.count ∧ g.size = l.size ∧
          g.iteration = 0 ∧ (g.max ≤ 1 → g.size < g.max) ∧ ∀ i < l.size, g.items i = l.items i := by
      refine ⟨_, rfl, ?_⟩
      split
      next hfull =>
        have hroom := h.room
        rw [grow, if_pos (by omega)]
        refine ⟨rfl, rfl, h.iteration, fun _ => by simp only at *; omega, fun i hi => ?_⟩
        dsimp only
        rw [if_neg (by omega), if_pos]
        split <;> omega
      next hroom => exact ⟨rfl, rfl, h.iteration, fun _ => by omega, fun _ _ => rfl⟩
    rw [hg]
    refine ⟨hgiter, ?_, ?_, ?_, ?_, fun i hi => ?_, fun i hi hi' => ?_, ?_⟩
    · simp only [length_append, length_singleton]
      omega
    · simp only [length_append, length_singleton]
      omega
    · simp only [length_append, length_singleton]
      omega
    · simp only
      omega
    · simp only [length_append, length_singleton] at hi
      dsimp only
      by_cases hlast : i = xs.length
      · subst hlast
        rw [show g.size = xs.length by omega, update_self, getElem_concat_length rfl]
      · rw [update_of_ne (by omega), hgitems i (by omega), getElem_append_left (by omega)]
        exact h.item i (by omega)
    · simp only [length_append, length_singleton] at hi hi'
      omega
    · simp only [mem_append, mem_singleton, not_or]
      exact ⟨h.nonnull, Ne.symm hnull⟩

theorem Holds.lastBelow (n : Nat) (hn : xs.length ≤ n) (hle : n ≤ l.size) (hne : xs ≠ []) :
    lastBelow l.items n = some (xs.length - 1) := by
  have hpos := length_pos_iff.mpr hne
  induction n with
  | zero => omega
  | succ n ih =>
    rw [RefList.lastBelow]
    by_cases hlast : xs.length = n + 1
    · have hitem : l.items n ≠ 0 := by
        rw [h.item n (by omega)]
        exact fun he => h.nonnull (he ▸ getElem_mem _)
      rw [if_pos hitem, hlast, Nat.add_sub_cancel]
    · rw [if_neg (by simp [h.hole n (by omega) (by omega)]), ih (by omega) (by omega)]

theorem Holds.popLast : l.popLast.1 = xs.getLast?.getD 0 ∧ Holds l.popLast.2 xs.dropLast := by
  rw [ARefList.popLast, h.count]
  by_cases hnil : xs = []
  · subst hnil
    exact ⟨rfl, h⟩
  have hpos := length_pos_iff.mpr hnil
  have hsize := h.size
  have hroom := h.room
  rw [if_neg (by omega), h.lastBelow l.size hsize le_rfl hnil]
  dsimp only
  rw [if_pos h.iteration]
  constructor
  · rw [h.item _ (by omega), getLast?_eq_getElem?, getElem?_eq_getElem (by omega)]
    rfl
  · apply Holds.checkSize0
    refine ⟨h.iteration, by simp, ?_, ?_, ?_, fun i hi => ?_, fun i hi hi' => ?_,
      fun hmem => h.nonnull (dropLast_subset _ hmem)⟩
    · have := h.bound
      rw [length_dropLast]
      omega
    · simp only [length_dropLast]
      omega
    · simp only
      omega
    · rw [length_dropLast] at hi
      dsimp only
      rw [update_of_ne (by omega), getElem_dropLast, h.item i (by omega)]
    · simp only [length_dropLast] at hi hi'
      dsimp only
      rw [show i = xs.length - 1 by omega, update_self]

theorem Holds.delFirst (item : P) :
    (l.delFirst item).1 = decide (item ∈ xs) ∧ Holds (l.delFirst item).2 (xs.erase item) := by
  rw [ARefList.delFirst, h.indexOf]
  by_cases hnull : item = 0
  · rw [if_pos hnull, decide_eq_false (hnull ▸ h.nonnull), erase_of_not_mem (hnull ▸ h.nonnull)]
    exact ⟨rfl, h⟩
  rw [if_neg hnull]
  by_cases hmem : item ∈ xs
  · have hlt := idxOf_lt_length_iff.mpr hmem
    have hsize := h.size
    have hbound := h.bound
    have hroom := h.room
    have hlen : (xs.erase item).length = xs.length - 1 := length_erase_of_mem hmem
    rw [if_pos hmem, if_neg (by omega), decide_eq_true hmem]
    refine ⟨rfl, ?_⟩
    dsimp only
    rw [Int.toNat_natCast, if_neg (by rw [h.iteration]; exact lt_irrefl 0)]
    have hnonnull : (0 : P) ∉ xs.erase item := fun hz => h.nonnull (mem_of_mem_erase hz)
    split
    next =>
      apply Holds.checkSize0
      refine ⟨h.iteration, ?_, by omega, ?_, fun hmax => ?_, fun i hi => ?_, fun i hi hi' => ?_, hnonnull⟩
      · simp [h.count, hlen]
      · simp only
        omega
      · simp only at *
        omega
      · dsimp only
        simp only [erase_eq_eraseIdx_of_idxOf rfl, getElem_eraseIdx]
        by_cases hi' : i < xs.idxOf item
        · rw [if_neg (by omega), dif_pos hi', h.item i (by omega)]
        · rw [if_pos (by omega), dif_neg hi', h.item (i + 1) (by omega)]
      · dsimp only at hi' ⊢
        split
        · exact h.hole (i + 1) (by omega) (by omega)
        · exact h.hole i (by omega) (by omega)
    next =>
      refine ⟨h.iteration, ?_, by omega, ?_, fun _ => zero_le _, fun i hi => ?_, fun _ _ _ => rfl, hnonnull⟩
      · simp only [hlen]
        omega
      · simp only
        omega
      · omega
  · rw [if_neg hmem, if_pos (by omega), decide_eq_false hmem, erase_of_not_mem hmem]
    exact ⟨rfl, h⟩

end

omit [DecidableEq P] in
/-- The items that `areflist_delAll` keeps, those before `readPos` and those that are packed. -/
theorem Holds.packed (h : Holds l xs) (readPos : Nat) (keep : P → Bool) (hnull : keep 0 = false)
    (hpos : readPos ≤ l.size) (hbefore : ∀ i < readPos, keep (l.items i) = true) :
    let packed := pack keep (fun items => items) (l.size - readPos) readPos readPos l.items
    packed.1 = (xs.filter keep).length ∧ ∀ i (hi : i < (xs.filter keep).length), packed.2 i = (xs.filter keep)[i] := by
  intro packed
  obtain ⟨hlen, hfirst, hrest⟩ := pack_spec keep l.items (fun r items => ∀ j, r ≤ j → items j = l.items j)
    (fun i items hi => hi i le_rfl)
    (fun i items hi j hj => hi j (by omega))
    (fun i items w hw hi j hj => (update_of_ne (by omega) _ _).trans (hi j (by omega)))
    (l.size - readPos) readPos readPos l.items le_rfl (fun _ _ => rfl)
  -- the slots split at `readPos`, and those before it are all kept
  have hsplit : xs.filter keep =
      (range readPos).map l.items ++ ((range' readPos (l.size - readPos)).map l.items).filter keep := by
    have hslots := congrArg (filter keep) h.slots
    rw [filter_append, (filter_eq_nil_iff (l := replicate _ (0 : P))).mpr, append_nil] at hslots
    · have hrange : range l.size = range readPos ++ range' readPos (l.size - readPos) := by
        have happend := range'_append_1 (s := 0) (m := readPos) (n := l.size - readPos)
        rw [zero_add, show readPos + (l.size - readPos) = l.size by omega] at happend
        rw [range_eq_range', range_eq_range', happend]
      rw [← hslots, hrange, map_append, filter_append]
      congr 1
      rw [filter_eq_self]
      intro x hx
      obtain ⟨i, hi, rfl⟩ := mem_map.mp hx
      exact hbefore i (mem_range.mp hi)
    · intro x hx
      rw [eq_of_mem_replicate hx, hnull]
      exact Bool.false_ne_true
  refine ⟨?_, fun i hi => ?_⟩
  · rw [hsplit, length_append, length_map, length_range]
    exact hlen
  · simp only [hsplit, getElem_append, length_map, length_range, getElem_map, getElem_range]
    split
    next hlt => exact hfirst i hlt
    next hge =>
      have hi' := hi
      rw [hsplit, length_append, length_map, length_range] at hi'
      have := hrest (i - readPos) (by omega)
      rwa [show readPos + (i - readPos) = i by omega] at this

theorem Holds.delAll (h : Holds l xs) (item : P) :
    (l.delAll item).1 = decide (item ∈ xs) ∧ Holds (l.delAll item).2 (xs.filter (· ≠ item)) := by
  rw [ARefList.delAll]
  have hkeep : xs.filter (fun x => decide (x ≠ 0 ∧ x ≠ item)) = xs.filter (· ≠ item) := by
    refine filter_congr fun x hx => ?_
    have hne : x ≠ 0 := fun he => h.nonnull (he ▸ hx)
    simp [hne]
  have hall : item ∉ xs → xs.filter (· ≠ item) = xs := fun hmem =>
    filter_eq_self.mpr fun x hx => decide_eq_true fun he => hmem (he ▸ hx)
  by_cases hnull : item = 0
  · have hmem : item ∉ xs := hnull ▸ h.nonnull
    rw [if_pos hnull, decide_eq_false hmem, hall hmem]
    exact ⟨rfl, h⟩
  rw [if_neg hnull]
  have hslot : ∀ x, x ∈ xs → ∃ i < l.size, l.items i = x := by
    intro x hx
    obtain ⟨i, hi, rfl⟩ := getElem_of_mem hx
    exact ⟨i, lt_of_lt_of_le hi h.size, h.item i hi⟩
  cases hfind : (range l.size).find? fun i => l.items i = 0 ∨ l.items i = item with
  | none =>
    have hmem : item ∉ xs := by
      intro hmem
      obtain ⟨i, hi, he⟩ := hslot item hmem
      have := find?_eq_none.mp hfind i (mem_range.mpr hi)
      simp [he] at this
    rw [decide_eq_false hmem, hall hmem]
    exact ⟨rfl, h⟩
  | some readPos =>
    obtain ⟨-, k, hk, hkr, hbefore⟩ := find?_eq_some_iff_getElem.mp hfind
    simp only [length_range] at hk
    simp only [getElem_range] at hkr hbefore
    subst hkr
    have hbefore : ∀ i < k, l.items i ≠ 0 ∧ l.items i ≠ item := fun i hi => by
      simpa using hbefore i hi
    obtain ⟨hlen, hpacked⟩ := h.packed k (fun x => decide (x ≠ 0 ∧ x ≠ item)) (by simp)
      (by omega) (fun i hi => decide_eq_true (hbefore i hi))
    rw [hkeep] at hlen
    simp only [hkeep] at hpacked
    have hle := length_filter_le (· ≠ item) xs
    have hbound := h.bound
    have hsize := h.size
    have hroom := h.room
    refine ⟨?_, ?_⟩
    · rw [Bool.eq_iff_iff, any_eq_true, decide_eq_true_iff]
      constructor
      · rintro ⟨i, hi, he⟩
        have hi := mem_range'_1.mp hi
        have he : l.items i = item := by simpa using he
        by_cases hlt : i < xs.length
        · rw [← he, h.item i hlt]
          exact getElem_mem hlt
        · exact absurd (he.symm.trans (h.hole i (by omega) (by omega))) hnull
      · intro hmem
        obtain ⟨i, hi, he⟩ := hslot item hmem
        have hge : k ≤ i := by
          by_contra hlt
          exact (hbefore i (by omega)).2 he
        exact ⟨i, mem_range'_1.mpr ⟨hge, by omega⟩, by simpa using he⟩
    · apply Holds.checkSize0
      rw [hlen, mod_eq_of_lt (by omega)]
      exact ⟨h.iteration, rfl, by omega, le_rfl, fun hmax => by simp only at *; omega, hpacked,
        fun i hi hi' => by simp only at hi'; omega, fun hz => h.nonnull (mem_filter.mp hz).1⟩

theorem Holds.copy (h : Holds l xs) (fresh : Fresh P) : ∃ l', l.copy false fresh = some l' ∧ Holds l' xs := by
  rw [ARefList.copy]
  split
  next hmax =>
    obtain ⟨hlen, -, hitems⟩ := @pack_spec P (fun x => decide (x ≠ 0)) (fun _ => l.items) l.items
      (fun _ _ => True) (fun _ _ _ => rfl) (fun _ _ _ => trivial)
      (fun _ _ _ _ _ => trivial) l.size 0 0 fresh.content le_rfl trivial
    have hkept : ((range' 0 l.size).map l.items).filter (fun x => decide (x ≠ 0)) = xs := by
      rw [← range_eq_range', h.slots, filter_append, filter_eq_self.mpr, filter_eq_nil_iff.mpr, append_nil]
      · intro x hx
        simp [eq_of_mem_replicate hx]
      · exact fun x hx => decide_eq_true fun he => h.nonnull (he ▸ hx)
    simp only [hkept, zero_add] at hlen hitems
    simp only [Bool.false_eq_true, if_false, hlen, h.count, if_true]
    refine ⟨_, rfl, Holds.checkSize0 ⟨h.iteration, rfl, h.bound, le_rfl, fun _ => le_rfl, hitems, ?_, h.nonnull⟩⟩
    exact fun i hi hi' => by simp only at hi'; omega
  next => exact ⟨l, rfl, h⟩

end Holds

/-! ### Runs -/

inductive Call (P : Type) where
  | add (l : Nat) (item : P) (fresh : Fresh P)
  | append (dst src : Nat) (fresh : Nat → Fresh P)
  | popLast (l : Nat)
  | delFirst (l : Nat) (item : P)
  | delAll (l : Nat) (item : P)
  | setEmpty (l : Nat)
  | copy (dst src : Nat) (fresh : Fresh P)
  | getCount (l : Nat)
  | get (l : Nat) (n : Int)
  | indexOf (l : Nat) (item : P)

inductive Answer (P : Type) where
  | done
  | item (x : P)
  | bool (b : Bool)
  | int (n : Int)
deriving DecidableEq

def call (lists : Nat → ARefList P) : Call P → Option (Answer P × (Nat → ARefList P))
  | .add l item fresh => some (.done, update lists l ((lists l).add item fresh))
  | .append dst src fresh => some (.done, append dst src fresh (lists src).size 0 lists)
  | .popLast l => some (.item (lists l).popLast.1, update lists l (lists l).popLast.2)
  | .delFirst l item => some (.bool ((lists l).delFirst item).1, update lists l ((lists l).delFirst item).2)
  | .delAll l item => some (.bool ((lists l).delAll item).1, update lists l ((lists l).delAll item).2)
  | .setEmpty l => some (.done, update lists l (lists l).setEmpty)
  | .copy dst src fresh =>
    ((lists src).copy (dst = src) fresh).map fun l => (.done, update lists dst l)
  | .getCount l => some (.int (lists l).count, lists)
  | .get l n => some (.item ((lists l).get n), lists)
  | .indexOf l item => some (.int ((lists l).indexOf item), lists)

def specNext (xss : Nat → List P) : Call P → Nat → List P
  | .add l item _ => update xss l (if item = 0 then xss l else xss l ++ [item])
  | .append dst src _ => update xss dst (xss dst ++ xss src)
  | .popLast l => update xss l (xss l).dropLast
  | .delFirst l item => update xss l ((xss l).erase item)
  | .delAll l item => update xss l ((xss l).filter (· ≠ item))
  | .setEmpty l => update xss l []
  | .copy dst src _ => update xss dst (xss src)
  | _ => xss

def specAnswer (xss : Nat → List P) : Call P → Answer P
  | .popLast l => .item ((xss l).getLast?.getD 0)
  | .delFirst l item => .bool (item ∈ xss l)
  | .delAll l item => .bool (item ∈ xss l)
  | .getCount l => .int (xss l).length
  | .get l n => .item (if n < 0 then 0 else (xss l).getD n.toNat 0)
  | .indexOf l item => .int (if item ∈ xss l then ((xss l).idxOf item : Int) else -1)
  | _ => .done

def AppendMeets (dst src : Nat) (fresh : Nat → Fresh P) : Nat → Nat → (Nat → ARefList P) → Prop
  | 0, _, _ => True
  | rounds + 1, index, lists =>
    AddMeets (lists dst) ((lists src).items index) ∧ AppendMeets dst src fresh rounds (index + 1)
        (update lists dst ((lists dst).add ((lists src).items index) (fresh index)))

/-- Additions meet their condition, and a list with an array is not copied to itself. -/
def Meets (lists : Nat → ARefList P) : Call P → Prop
  | .add l item _ => AddMeets (lists l) item
  | .append dst src fresh => AppendMeets dst src fresh (lists src).size 0 lists
  | .copy dst src _ => dst = src → (lists src).max ≤ 1
  | _ => True

section Runs
variable {lists : Nat → ARefList P} {xss : Nat → List P}

omit [DecidableEq P] in
theorem holds_update (h : ∀ l, Holds (lists l) (xss l)) {l : Nat} {a : ARefList P} {xs : List P} (ha : Holds a xs) :
    ∀ k, Holds (update lists l a k) (update xss l xs k) := by
  intro k
  by_cases hk : k = l
  · rw [hk, update_self, update_self]
    exact ha
  · rw [update_of_ne hk, update_of_ne hk]
    exact h k

/-- The loop of `areflist_append` adds the items of the source from `index` on. The source keeps
them where they are also if it is the list that grows. -/
theorem append_holds {dst src : Nat} {fresh : Nat → Fresh P} {ys : List P} {size : Nat} (rounds index : Nat)
    (lists : Nat → ARefList P) (xss : Nat → List P) (h : ∀ l, Holds (lists l) (xss l))
    (hsrc : ys <+: xss src) (hend : ys.length ≤ size) (hsize : size ≤ (lists src).size) (hrounds : index + rounds = size)
    (hhole : ys.length < size → xss src = ys) (hmeets : AppendMeets dst src fresh rounds index lists) :
    ∀ l, Holds (append dst src fresh rounds index lists l) (update xss dst (xss dst ++ ys.drop index) l) := by
  induction rounds generalizing index lists xss with
  | zero =>
    rw [drop_of_length_le (by omega), append_nil, update_eq_self]
    exact h
  | succ rounds ih =>
    obtain ⟨hadd, hrest⟩ := hmeets
    have hstep := holds_update (l := dst) h ((h dst).add (fresh index) hadd)
    by_cases hlt : index < ys.length
    · -- an item
      have hitem : (lists src).items index = ys[index] := by
        rw [(h src).item index (lt_of_lt_of_le hlt hsrc.length_le)]
        exact (hsrc.getElem hlt).symm
      have hnull : ys[index] ≠ 0 := fun he => (h src).nonnull (he ▸ hsrc.subset (getElem_mem hlt))
      rw [hitem, if_neg hnull] at hstep
      rw [hitem] at hrest
      rw [append, hitem]
      have hfull := (hadd (hitem ▸ hnull)).2.1
      have hgrown : xss src <+: update xss dst (xss dst ++ [ys[index]]) src := by
        by_cases hsame : src = dst
        · rw [hsame, update_self]
          exact prefix_append _ _
        · exact (update_of_ne hsame _ xss).symm ▸ prefix_rfl
      have hsize' : size ≤ (update lists dst ((lists dst).add ys[index] (fresh index)) src).size := by
        by_cases hsame : src = dst
        · have hs := (hstep dst).size
          subst hsame
          simp only [update_self, length_append, length_singleton] at hs ⊢
          have := (h src).count
          omega
        · rw [update_of_ne hsame]
          exact hsize
      have := ih (index + 1) _ _ hstep (hsrc.trans hgrown) hsize' (by omega) ?_ hrest
      · rw [update_self, update_idem, append_assoc, singleton_append, ← drop_eq_getElem_cons hlt] at this
        exact this
      · intro hlt'
        by_cases hsame : src = dst
        · -- a list with a slot that was left does not grow
          have heq := hhole hlt'
          have := (h src).count
          subst hsame
          rw [heq] at this
          omega
        · rw [update_of_ne hsame]
          exact hhole hlt'
    · -- a slot that was left
      have hys := hhole (by omega)
      have hitem : (lists src).items index = 0 := (h src).hole index (by rw [hys]; omega) (by omega)
      rw [append, hitem, add, if_pos rfl, update_eq_self]
      rw [hitem, add, if_pos rfl, update_eq_self] at hrest
      have := ih (index + 1) lists xss h hsrc hsize (by omega) hhole hrest
      rwa [drop_of_length_le (show ys.length ≤ index + 1 by omega),
        ← drop_of_length_le (show ys.length ≤ index by omega)] at this

theorem call_right (h : ∀ l, Holds (lists l) (xss l)) (c : Call P) (hmeets : Meets lists c) :
    ∃ lists', call lists c = some (specAnswer xss c, lists') ∧ ∀ l, Holds (lists' l) (specNext xss c l) := by
  cases c with
  | add l item fresh => exact ⟨_, rfl, holds_update h ((h l).add fresh hmeets)⟩
  | append dst src fresh =>
    have hrun := append_holds (lists src).size 0 lists xss h
      prefix_rfl (h src).size le_rfl (by omega) (fun _ => rfl) hmeets
    exact ⟨_, rfl, hrun⟩
  | popLast l =>
    obtain ⟨hitem, hrest⟩ := (h l).popLast
    exact ⟨_, by rw [call, hitem]; rfl, holds_update h hrest⟩
  | delFirst l item =>
    obtain ⟨hfound, hrest⟩ := (h l).delFirst item
    exact ⟨_, by rw [call, hfound]; rfl, holds_update h hrest⟩
  | delAll l item =>
    obtain ⟨hfound, hrest⟩ := (h l).delAll item
    exact ⟨_, by rw [call, hfound]; rfl, holds_update h hrest⟩
  | setEmpty l => exact ⟨_, rfl, holds_update h (h l).setEmpty⟩
  | copy dst src fresh =>
    by_cases hsame : dst = src
    · have hcopy : (lists src).copy (decide (dst = src)) fresh = some (lists src) := by
        rw [copy, if_neg (by have := hmeets hsame; omega)]
      exact ⟨_, by rw [call, hcopy]; rfl, holds_update h (h src)⟩
    · obtain ⟨l', hcopy, hl'⟩ := (h src).copy fresh
      exact ⟨_, by rw [call, decide_eq_false hsame, hcopy]; rfl, holds_update h hl'⟩
  | getCount l => exact ⟨_, by rw [call, (h l).count]; rfl, h⟩
  | get l n => exact ⟨_, by rw [call, (h l).get]; rfl, h⟩
  | indexOf l item => exact ⟨_, by rw [call, (h l).indexOf]; rfl, h⟩

end Runs

structure Traced (P : Type) where
  lists : Nat → ARefList P
  content : Nat → List P

def Starts (t : Traced P) : Prop := ∃ memory : Nat → Nat → P, t = ⟨fun l => init (memory l), fun _ => []⟩

def Calls (t : Traced P) (c : Call P) (t' : Traced P) : Prop :=
  ∃ answer lists, call t.lists c = some (answer, lists) ∧ t' = ⟨lists, specNext t.content c⟩

/-- In a run whose calls all meet the condition the lists are lists: every further call that meets
it returns, with the answer of lists. -/
theorem list_right {t : Traced P} (h : Reach Starts (fun t c t' => Meets t.lists c ∧ Calls t c t') t) :
    ∀ c, Meets t.lists c → ∃ lists, call t.lists c = some (specAnswer t.content c, lists) := by
  have hholds : ∀ l, Holds (t.lists l) (t.content l) := by
    apply h.invariant
    · rintro t ⟨memory, rfl⟩ l
      exact holds_init _
    · intro t c t' hholds ⟨hmeets, answer, lists, hcall, ht'⟩
      obtain ⟨lists', hcall', hholds'⟩ := call_right hholds c hmeets
      obtain ⟨-, rfl⟩ := Prod.mk.inj (Option.some.inj (hcall.symm.trans hcall'))
      rw [ht']
      exact hholds'
  intro c hmeets
  obtain ⟨lists', hcall, -⟩ := call_right hholds c hmeets
  exact ⟨lists', hcall⟩

/-- The last item is taken from a list of two. -/
theorem twoAdded_right : ∃ lists, call (P := Nat)
    (update (update (fun _ => init fun _ => 0) 0 ((init fun _ => 0).add 7 ⟨0, fun _ => 0⟩)) 0
      (((init fun _ => 0).add 7 ⟨0, fun _ => 0⟩).add 8 ⟨0, fun _ => 0⟩)) (.popLast 0) = some (.item 8, lists) := by
  refine list_right (P := Nat) (.step (a := .add 0 8 ⟨0, fun _ => 0⟩)
    (.step (a := .add 0 7 ⟨0, fun _ => 0⟩) (.start ⟨fun _ _ => 0, rfl⟩) ⟨?_, _, _, rfl, rfl⟩)
    ⟨?_, _, _, rfl, rfl⟩) (.popLast 0) trivial
  all_goals exact fun _ => ⟨by decide, rfl, by decide⟩

/-- After an item was added and taken, the one that is added next is not found. -/
theorem list_wrong : ∃ t : Traced Nat, Reach Starts Calls t ∧ t.content 0 = [8] ∧ (t.lists 0).count = 1 ∧
    (t.lists 0).get 0 = 0 ∧ (t.lists 0).indexOf 8 = -1 :=
  ⟨_, .step (a := .add 0 8 ⟨0, fun _ => 0⟩) (.step (a := .popLast 0)
    (.step (a := .add 0 7 ⟨0, fun _ => 0⟩) (.start ⟨fun _ _ => 0, rfl⟩) ⟨_, _, rfl, rfl⟩) ⟨_, _, rfl, rfl⟩)
    ⟨_, _, rfl, rfl⟩, rfl, rfl, rfl, rfl⟩

end GemDroid.Utils.RefList
