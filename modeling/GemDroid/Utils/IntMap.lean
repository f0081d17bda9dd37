import GemDroid.Lib.Reach
import Mathlib.Data.Set.Card

/-! Maps from integers to references (`android/utils/intmap.c`).

Keys and values are in two arrays inside the map. Growth moves them to blocks of the heap that have
as many bytes as they should have entries, so the entry behind it is written outside. The loops that search the keys are unrolled, and an unrolled loop runs once at least: on an
empty map they look at four slots that are not in use, and `aintMap_getWithDefault` looks at one
slot too many on any map. -/
namespace GemDroid.Utils.IntMap
open Lib Function List Nat

variable {n i : Nat} {key : Int}

variable {V : Type}

/-- The type `AIntMap`. A value of `NULL` is zero. `heap` is the number of bytes of each block of the
heap, if the arrays are not `keys0` and `values0`. -/
structure AIntMap (V : Type) where
  size : Int
  capacity : Nat
  keys : Nat → Int
  values : Nat → V
  heap : Option Nat

def new [Zero V] : AIntMap V := ⟨0, 4, fun _ => 0, fun _ => 0, none⟩

/-- How often `DUFF4` executes its statement. The body of the loop has it four times and is
entered at one of them; the count is tested behind the body. -/
def duff4 (count : Int) : Nat :=
  (if (count % 4).toNat = 0 then 4 else (count % 4).toNat) + 4 * ((count + 3).tdiv 4 - 1).toNat

def scan (keys : Nat → Int) (key : Int) (n : Nat) : Option Nat :=
  (List.range n).find? fun index => keys index = key

namespace AIntMap

def getCount (m : AIntMap V) : Int := m.size

def getWithDefault (m : AIntMap V) (key : Int) (dflt : V) : V :=
  match scan m.keys key (duff4 (m.size + 1)) with
  | some index => m.values index
  | none => dflt

def newCapacity (m : AIntMap V) : Nat := if m.capacity < 256 then m.capacity * 2 else m.capacity + m.capacity / 4

/-- `aintMap_grow`, with what is in the memory that is obtained. `AARRAY_RENEW` is given pointers to
`void`, so it counts in bytes. Arrays inside the map are not passed to `realloc`. -/
def grow (m : AIntMap V) (fresh : Nat → Int × V) : AIntMap V :=
  { m with
    capacity := m.newCapacity
    keys := fun i => if m.heap.isSome then m.keys i else (fresh i).1
    values := fun i => if m.heap.isSome then m.values i else (fresh i).2
    heap := some m.newCapacity }

/-- A slot of `keys` is inside its array: `keys0` has eight, and in the heap an `int` takes four bytes. -/
def inside (m : AIntMap V) (index : Nat) : Bool :=
  match m.heap with
  | none => index < 8
  | some bytes => 4 * (index + 1) ≤ bytes

def set [Zero V] (m : AIntMap V) (key : Int) (value : V) (fresh : Nat → Int × V) : Option (V × AIntMap V) :=
  match scan m.keys key (duff4 m.size) with
  | some index => some (m.values index, { m with values := Function.update m.values index value })
  | none =>
    if m.size < 0 then none
    else
      let g := if m.size ≥ m.capacity then m.grow fresh else m
      if g.inside m.size.toNat then
        some (0, { g with
          keys := Function.update g.keys m.size.toNat key
          values := Function.update g.values m.size.toNat value
          size := m.size + 1 })
      else none

def del [Zero V] (m : AIntMap V) (key : Int) : V × AIntMap V :=
  match scan m.keys key (duff4 m.size) with
  | none => (0, m)
  | some index =>
    (m.values index, if (index : Int) + 1 < m.size then
        { m with
          keys := Function.update m.keys index (m.keys (m.size - 1).toNat)
          values := Function.update m.values index (m.values (m.size - 1).toNat)
          size := m.size - 1 }
      else { m with size := m.size - 1 })

def iteratorNext (m : AIntMap V) (index : Nat) : Option ((Int × V) × Nat) :=
  if (index : Int) ≥ m.size then none else some ((m.keys index, m.values index), index + 1)

def iterateFrom (m : AIntMap V) : Nat → Nat → List (Int × V)
  | 0, _ => []
  | rounds + 1, index =>
    match m.iteratorNext index with
    | none => []
    | some (entry, index) => entry :: m.iterateFrom rounds index

def iterate (m : AIntMap V) : List (Int × V) := m.iterateFrom (m.size.toNat + 1) 0

end AIntMap

/-! ### Searches -/

theorem duff4_of_pos {count : Nat} (h : 0 < count) : duff4 count = count := by
  rw [duff4, Int.tdiv_eq_ediv_of_nonneg (by omega)]
  split <;> omega

section Scan
variable {keys : Nat → Int}

theorem scan_some (h : scan keys key n = some i) : i < n ∧ keys i = key := by
  refine ⟨mem_range.mp (mem_of_find?_eq_some h), ?_⟩
  simpa using List.find?_some h

theorem scan_none : scan keys key n = none ↔ ∀ i < n, keys i ≠ key := by
  simp [scan, List.find?_eq_none]

end Scan

/-! ### The function that a map is -/

structure Represents (m : AIntMap V) (f : Int → Option V) : Prop where
  nonneg : 0 ≤ m.size
  inj : ∀ i < m.size.toNat, ∀ j < m.size.toNat, m.keys i = m.keys j → i = j
  entry : ∀ k v, f k = some v ↔ ∃ i < m.size.toNat, m.keys i = k ∧ m.values i = v
  home : m.heap = none ∧ m.capacity ≤ 8

section Represents
variable {m : AIntMap V} {f : Int → Option V}

theorem represents_new [Zero V] : Represents (new : AIntMap V) fun _ => none :=
  ⟨le_rfl, fun i hi => absurd hi (not_lt_zero i), fun _ _ => ⟨nofun, fun ⟨i, hi, _⟩ => absurd hi (not_lt_zero i)⟩,
    rfl, by simp [new]⟩

section
variable (h : Represents m f)
include h

theorem Represents.at (hi : i < m.size.toNat) : f (m.keys i) = some (m.values i) :=
  (h.entry _ _).mpr ⟨i, hi, rfl, rfl⟩

theorem Represents.absent : f key = none ↔ ∀ i < m.size.toNat, m.keys i ≠ key := by
  constructor
  · intro hnone i hi he
    have hsome := h.at hi
    rw [he, hnone] at hsome
    cases hsome
  · intro hall
    by_contra hne
    obtain ⟨v, hv⟩ := Option.ne_none_iff_exists'.mp hne
    obtain ⟨i, hi, he, -⟩ := (h.entry key v).mp hv
    exact hall i hi he

theorem Represents.count : m.size = {k | (f k).isSome}.ncard := by
  have himage : {k | (f k).isSome} = m.keys '' (Finset.range m.size.toNat : Set Nat) := by
    ext k
    simp only [Set.mem_ofPred_eq, Set.mem_image, Finset.coe_range, Set.mem_Iio]
    constructor
    · intro hk
      obtain ⟨v, hv⟩ := Option.isSome_iff_exists.mp hk
      obtain ⟨i, hi, hkey, -⟩ := (h.entry k v).mp hv
      exact ⟨i, hi, hkey⟩
    · rintro ⟨i, hi, rfl⟩
      rw [h.at hi]
      rfl
  have hinj : Set.InjOn m.keys (Finset.range m.size.toNat : Set Nat) := by
    intro i hi j hj he
    exact h.inj i (by simpa using hi) j (by simpa using hj) he
  rw [himage, hinj.ncard_image, Set.ncard_coe_finset, Finset.card_range]
  exact (Int.toNat_of_nonneg h.nonneg).symm

/-- A search of more slots than are in use finds a key that is there where it is. -/
theorem Represents.scan_mem (hn : m.size.toNat ≤ n) (hkey : f key ≠ none) :
    ∃ i < m.size.toNat, scan m.keys key n = some i ∧ m.keys i = key := by
  obtain ⟨v, hv⟩ := Option.ne_none_iff_exists'.mp hkey
  obtain ⟨i, hi, he, -⟩ := (h.entry key v).mp hv
  cases hs : scan m.keys key n with
  | none => exact absurd he (scan_none.mp hs i (by omega))
  | some j =>
    obtain ⟨-, hj⟩ := scan_some hs
    by_cases hjn : j < m.size.toNat
    · exact ⟨j, hjn, rfl, hj⟩
    -- the search stops at the first slot with the key
    have hfirst := List.find?_eq_some_iff_getElem.mp hs
    obtain ⟨-, k, hk, hkj, hbefore⟩ := hfirst
    simp only [getElem_range] at hkj hbefore
    have := hbefore i (by omega)
    simp [he] at this

theorem Represents.scan_size (hempty : m.size = 0 → ∀ i < 4, m.keys i ≠ key) :
    (f key = none → scan m.keys key (duff4 m.size) = none) ∧
      (f key ≠ none → ∃ i < m.size.toNat, scan m.keys key (duff4 m.size) = some i ∧ m.keys i = key) := by
  obtain hzero | hpos := h.nonneg.eq_or_lt
  · have hnone : f key = none := h.absent.mpr fun i hi => by omega
    refine ⟨fun _ => scan_none.mpr ?_, fun hne => absurd hnone hne⟩
    rw [← hzero]
    exact hempty hzero.symm
  have hcount : duff4 m.size = m.size.toNat := by
    have := duff4_of_pos (show 0 < m.size.toNat by omega)
    rwa [Int.toNat_of_nonneg h.nonneg] at this
  rw [hcount]
  exact ⟨fun hnone => scan_none.mpr (h.absent.mp hnone), h.scan_mem le_rfl⟩

theorem Represents.getWithDefault {dflt : V}
    (hstale : f key = none → m.keys m.size.toNat = key → m.values m.size.toNat = dflt) :
    m.getWithDefault key dflt = (f key).getD dflt := by
  have hnonneg := h.nonneg
  have hcount : duff4 (m.size + 1) = m.size.toNat + 1 := by
    have := duff4_of_pos (succ_pos m.size.toNat)
    rwa [cast_succ, Int.toNat_of_nonneg hnonneg] at this
  rw [AIntMap.getWithDefault, hcount]
  by_cases hkey : f key = none
  · rw [hkey]
    cases hs : scan m.keys key (m.size.toNat + 1) with
    | none => rfl
    | some i =>
      obtain ⟨hi, he⟩ := scan_some hs
      have hlast : i = m.size.toNat := by
        by_contra hne
        exact h.absent.mp hkey i (by omega) he
      subst hlast
      exact hstale hkey he
  · obtain ⟨i, hi, hs, he⟩ := h.scan_mem (le_succ _) hkey
    rw [hs, ← he, h.at hi]
    rfl

theorem Represents.replace (hi : i < m.size.toNat) (value : V) :
    Represents { m with values := update m.values i value } (update f (m.keys i) (some value)) := by
  refine ⟨h.nonneg, h.inj, fun k v => ?_, h.home⟩
  by_cases hk : k = m.keys i
  · subst hk
    rw [update_self]
    constructor
    · intro hv
      cases hv
      exact ⟨i, hi, rfl, update_self _ _ _⟩
    · rintro ⟨j, hj, he, hv⟩
      obtain rfl := h.inj j hj i hi he
      exact congrArg some ((update_self ..).symm.trans hv)
  · rw [update_of_ne hk, h.entry]
    refine exists_congr fun j => and_congr_right fun _ => and_congr_right fun he => ?_
    have hne : j ≠ i := fun heq => hk (by rw [← he, heq])
    show _ ↔ update m.values i value j = v
    rw [update_of_ne hne]

theorem Represents.append (hkey : f key = none) (value : V) : Represents { m with
      keys := update m.keys m.size.toNat key
      values := update m.values m.size.toNat value
      size := m.size + 1 } (update f key (some value)) := by
  have hnonneg := h.nonneg
  have hsize : (m.size + 1).toNat = m.size.toNat + 1 := by omega
  have habsent := h.absent.mp hkey
  have hold : ∀ j < m.size.toNat, update m.keys m.size.toNat key j = m.keys j :=
    fun j hj => update_of_ne (by omega) _ _
  refine ⟨by simp only; omega, fun i hi j hj he => ?_, fun k v => ?_, h.home⟩
  · simp only [hsize] at hi hj he
    obtain hi | rfl := Nat.lt_succ_iff_lt_or_eq.mp hi <;> obtain hj | rfl := Nat.lt_succ_iff_lt_or_eq.mp hj
    · rw [hold i hi, hold j hj] at he
      exact h.inj i hi j hj he
    · rw [hold i hi, update_self] at he
      exact absurd he (habsent i hi)
    · rw [hold j hj, update_self] at he
      exact absurd he.symm (habsent j hj)
    · rfl
  · simp only [hsize]
    by_cases hk : k = key
    · subst hk
      rw [update_self]
      constructor
      · intro hv
        cases hv
        exact ⟨m.size.toNat, lt_succ_self _, update_self _ _ _, update_self _ _ _⟩
      · rintro ⟨j, hj, he, hv⟩
        obtain hj | rfl := Nat.lt_succ_iff_lt_or_eq.mp hj
        · rw [hold j hj] at he
          exact absurd he (habsent j hj)
        · rw [← hv, update_self]
    · rw [update_of_ne hk, h.entry]
      constructor
      · rintro ⟨j, hj, he, hv⟩
        exact ⟨j, by omega, (hold j hj).trans he, (update_of_ne (by omega) _ _).trans hv⟩
      · rintro ⟨j, hj, he, hv⟩
        obtain hj | rfl := Nat.lt_succ_iff_lt_or_eq.mp hj
        · exact ⟨j, hj, (hold j hj).symm.trans he, (update_of_ne (by omega) _ _).symm.trans hv⟩
        · rw [update_self] at he
          exact absurd he.symm hk

theorem Represents.remove (hi : i < m.size.toNat) : Represents { m with
      keys := update m.keys i (m.keys (m.size - 1).toNat)
      values := update m.values i (m.values (m.size - 1).toNat)
      size := m.size - 1 } (update f (m.keys i) none) := by
  -- the slot that the entry of slot `j` came from
  have hfrom : ∀ j < (m.size - 1).toNat, ∃ l < m.size.toNat, l ≠ i ∧
      update m.keys i (m.keys (m.size - 1).toNat) j = m.keys l ∧
      update m.values i (m.values (m.size - 1).toNat) j = m.values l ∧
      l = if j = i then (m.size - 1).toNat else j := by
    intro j hj
    by_cases hji : j = i
    · subst hji
      exact ⟨(m.size - 1).toNat, by omega, by omega, update_self _ _ _, update_self _ _ _, (if_pos rfl).symm⟩
    · exact ⟨j, by omega, hji, update_of_ne hji _ _, update_of_ne hji _ _, (if_neg hji).symm⟩
  refine ⟨by simp only; omega, fun j hj l hl he => ?_, fun k v => ?_, h.home⟩
  · obtain ⟨j', hj', -, hkj, -, hj''⟩ := hfrom j hj
    obtain ⟨l', hl', -, hkl, -, hl''⟩ := hfrom l hl
    have hsame := h.inj j' hj' l' hl' (hkj.symm.trans (he.trans hkl))
    simp only at hj hl
    split at hj'' <;> split at hl'' <;> omega
  · by_cases hk : k = m.keys i
    · rw [hk, update_self]
      refine ⟨nofun, ?_⟩
      rintro ⟨j, hj, he, -⟩
      obtain ⟨l, hl, hli, hkl, -⟩ := hfrom j hj
      exact absurd (h.inj l hl i hi (hkl.symm.trans he)) hli
    · rw [update_of_ne hk, h.entry]
      constructor
      · rintro ⟨l, hl, he, hv⟩
        have hli : l ≠ i := fun heq => hk (by rw [← he, heq])
        by_cases hlast : l = (m.size - 1).toNat
        · refine ⟨i, by simp only; omega, ?_, ?_⟩
          · exact (update_self ..).trans (hlast ▸ he)
          · exact (update_self ..).trans (hlast ▸ hv)
        · exact ⟨l, by simp only; omega, (update_of_ne hli _ _).trans he, (update_of_ne hli _ _).trans hv⟩
      · rintro ⟨j, hj, he, hv⟩
        obtain ⟨l, hl, -, hkl, hvl, -⟩ := hfrom j hj
        exact ⟨l, hl, hkl.symm.trans he, hvl.symm.trans hv⟩

section
variable (hempty : m.size = 0 → ∀ i < 4, m.keys i ≠ key)
include hempty

theorem Represents.set [Zero V] (hroom : f key = none → m.size < m.capacity) (value : V) (fresh : Nat → Int × V) :
    ∃ m', m.set key value fresh = some ((f key).getD 0, m') ∧ Represents m' (update f key (some value)) := by
  obtain ⟨hnone, hsome⟩ := h.scan_size hempty
  rw [AIntMap.set]
  by_cases hkey : f key = none
  · have hnonneg := h.nonneg
    have hlt := hroom hkey
    have hinside : m.inside m.size.toNat = true := by
      obtain ⟨hheap, hcapacity⟩ := h.home
      simp only [AIntMap.inside, hheap, decide_eq_true_eq]
      omega
    rw [hnone hkey]
    simp only [if_neg (show ¬ m.size < 0 by omega), ge_iff_le, if_neg (show ¬ (m.capacity : Int) ≤ m.size by omega),
      hinside, if_true]
    exact ⟨_, by rw [hkey]; rfl, h.append hkey value⟩
  · obtain ⟨i, hi, hs, he⟩ := hsome hkey
    rw [hs, ← he, h.at hi]
    exact ⟨_, rfl, h.replace hi value⟩

theorem Represents.del [Zero V] : (m.del key).1 = (f key).getD 0 ∧ Represents (m.del key).2 (update f key none) := by
  obtain ⟨hnone, hsome⟩ := h.scan_size hempty
  rw [AIntMap.del]
  by_cases hkey : f key = none
  · rw [hnone hkey, hkey, ← hkey, update_eq_self]
    exact ⟨by rw [hkey]; rfl, h⟩
  obtain ⟨i, hi, hs, he⟩ := hsome hkey
  have hrem := h.remove hi
  rw [hs, ← he, h.at hi]
  refine ⟨rfl, ?_⟩
  dsimp only
  split
  · exact hrem
  · -- the last entry is moved to its own slot
    have hlast : i = (m.size - 1).toNat := by omega
    rw [← hlast, update_eq_self, update_eq_self] at hrem
    exact hrem

end

end

theorem iterateFrom_eq (m : AIntMap V) (rounds index : Nat) (h : m.size.toNat < index + rounds) :
    m.iterateFrom rounds index = (List.range' index (m.size.toNat - index)).map fun i => (m.keys i, m.values i) := by
  induction rounds generalizing index with
  | zero =>
    rw [show m.size.toNat - index = 0 by omega]
    rfl
  | succ rounds ih =>
    rw [AIntMap.iterateFrom, AIntMap.iteratorNext]
    by_cases hend : (index : Int) ≥ m.size
    · rw [if_pos hend, show m.size.toNat - index = 0 by omega]
      rfl
    · rw [if_neg hend, show m.size.toNat - index = m.size.toNat - (index + 1) + 1 by omega, List.range'_succ]
      dsimp only
      rw [ih (index + 1) (by omega), map_cons]

theorem Represents.iterate (h : Represents m f) :
    (m.iterate.map Prod.fst).Nodup ∧ ∀ k v, (k, v) ∈ m.iterate ↔ f k = some v := by
  rw [AIntMap.iterate, iterateFrom_eq m _ 0 (by omega), Nat.sub_zero, ← range_eq_range']
  constructor
  · rw [map_map]
    refine List.Nodup.map_on (fun i hi j hj he => ?_) nodup_range
    exact h.inj i (mem_range.mp hi) j (mem_range.mp hj) he
  · intro k v
    simp [h.entry]

end Represents

/-! ### Runs -/

section Runs
variable [Zero V]

inductive Call (V : Type) where
  | set (key : Int) (value : V) (fresh : Nat → Int × V)
  | del (key : Int)
  | getWithDefault (key : Int) (dflt : V)
  | getCount
  | iterate

inductive Answer (V : Type) where
  | value (v : V)
  | count (n : Int)
  | entries (l : List (Int × V))
deriving DecidableEq

def call (m : AIntMap V) : Call V → Option (Answer V × AIntMap V)
  | .set key value fresh => (m.set key value fresh).map fun r => (.value r.1, r.2)
  | .del key => some (.value (m.del key).1, (m.del key).2)
  | .getWithDefault key dflt => some (.value (m.getWithDefault key dflt), m)
  | .getCount => some (.count m.getCount, m)
  | .iterate => some (.entries m.iterate, m)

def specNext (f : Int → Option V) : Call V → Int → Option V
  | .set key value _ => Function.update f key (some value)
  | .del key => Function.update f key none
  | _ => f

def SpecAnswer (f : Int → Option V) : Call V → Answer V → Prop
  | .set key _ _, .value v => v = (f key).getD 0
  | .del key, .value v => v = (f key).getD 0
  | .getWithDefault key dflt, .value v => v = (f key).getD dflt
  | .getCount, .count n => n = {k | (f k).isSome}.ncard
  | .iterate, .entries l => (l.map Prod.fst).Nodup ∧ ∀ k v, (k, v) ∈ l ↔ f k = some v
  | _, _ => False

/-- A map in a run, and what was set and not deleted since. -/
structure Traced (V : Type) where
  map : AIntMap V
  content : Int → Option V

def Starts (t : Traced V) : Prop := t = ⟨new, fun _ => none⟩

def Calls (t : Traced V) (c : Call V) (t' : Traced V) : Prop :=
  ∃ answer m, call t.map c = some (answer, m) ∧ t' = ⟨m, specNext t.content c⟩

/-- A key is added only while the arrays have room, and set or deleted in an empty map only if
none of the first four slots has it; a key that is not there is looked up only if the first slot
that is not in use does not have it, or has the default as its value. -/
def Meets (t : Traced V) : Call V → Prop
  | .set key _ _ => (t.map.size = 0 → ∀ i < 4, t.map.keys i ≠ key) ∧
      (t.content key = none → t.map.size < t.map.capacity)
  | .del key => t.map.size = 0 → ∀ i < 4, t.map.keys i ≠ key
  | .getWithDefault key dflt => t.content key = none → t.map.keys t.map.size.toNat = key →
      t.map.values t.map.size.toNat = dflt
  | _ => True

theorem call_right {t : Traced V} {c : Call V} (h : Represents t.map t.content) (hmeets : Meets t c) :
    ∃ answer m, call t.map c = some (answer, m) ∧ SpecAnswer t.content c answer ∧
      Represents m (specNext t.content c) := by
  cases c with
  | set key value fresh =>
    obtain ⟨m, hset, hrep⟩ := h.set hmeets.1 hmeets.2 value fresh
    exact ⟨.value ((t.content key).getD 0), m, by rw [call, hset]; rfl, rfl, hrep⟩
  | del key => exact ⟨_, _, rfl, h.del hmeets⟩
  | getWithDefault key dflt => exact ⟨_, _, rfl, h.getWithDefault hmeets, h⟩
  | getCount => exact ⟨_, _, rfl, h.count, h⟩
  | iterate => exact ⟨_, _, rfl, h.iterate, h⟩

/-- In a run whose calls all meet the condition the map is a partial function: every further call
that meets it returns and answers as what was set and not deleted since does. -/
theorem map_right {t : Traced V} (h : Reach Starts (fun t c t' => Meets t c ∧ Calls t c t') t) :
    ∀ c, Meets t c → ∃ answer m, call t.map c = some (answer, m) ∧ SpecAnswer t.content c answer := by
  have hrep : Represents t.map t.content := by
    apply h.invariant
    · intro t ht
      rw [ht]
      exact represents_new
    · intro t c t' hrep ⟨hmeets, answer, m, hcall, ht'⟩
      obtain ⟨answer', m', hcall', -, hrep'⟩ := call_right hrep hmeets
      obtain ⟨-, rfl⟩ := Prod.mk.inj (Option.some.inj (hcall.symm.trans hcall'))
      rw [ht']
      exact hrep'
  intro c hmeets
  obtain ⟨answer, m, hcall, hanswer, -⟩ := call_right hrep hmeets
  exact ⟨answer, m, hcall, hanswer⟩

end Runs

/-- The value of a key is found in a map of one entry. -/
theorem oneSet_right : ∃ m answer m', call (new : AIntMap Nat) (.set 7 70 fun _ => (0, 0)) = some (.value 0, m) ∧
    call m (.getWithDefault 7 5) = some (answer, m') ∧
    SpecAnswer (Function.update (fun _ => none) 7 (some 70)) (.getWithDefault 7 5) answer := by
  have hset : Meets (⟨new, fun _ => none⟩ : Traced Nat) (.set 7 70 fun _ => (0, 0)) :=
    ⟨fun _ i _ => by simp [new], fun _ => by decide⟩
  have hget := map_right (.step (.start rfl) ⟨hset, _, _, rfl, rfl⟩) (.getWithDefault 7 5) fun h => by cases h
  obtain ⟨answer, m', hcall, hanswer⟩ := hget
  exact ⟨_, answer, m', rfl, hcall, hanswer⟩

/-- A deleted key is still found, the key zero is not counted, and the fifth key is written behind the
end of a block. -/
theorem map_wrong : (∃ t : Traced Nat, Reach Starts Calls t ∧ t.content 1 = none ∧ t.map.getWithDefault 1 0 = 10) ∧
    (∃ t : Traced Nat, Reach Starts Calls t ∧ t.content 0 = some 10 ∧ t.map.getCount = 0) ∧
    ∃ t : Traced Nat, Reach Starts Calls t ∧ ∀ fresh, call t.map (.set 5 50 fresh) = none := by
  have hstart : Reach Starts Calls (⟨new, fun _ => none⟩ : Traced Nat) := .start rfl
  have hone := hstart.step (a := .set 1 10 fun _ => (0, 0)) ⟨_, _, rfl, rfl⟩
  refine ⟨⟨_, hone.step (a := .del 1) ⟨_, _, rfl, rfl⟩, rfl, rfl⟩,
    ⟨_, hstart.step (a := .set 0 10 fun _ => (0, 0)) ⟨_, _, rfl, rfl⟩, rfl, rfl⟩, ?_⟩
  have htwo := hone.step (a := .set 2 20 fun _ => (0, 0)) ⟨_, _, rfl, rfl⟩
  have hthree := htwo.step (a := .set 3 30 fun _ => (0, 0)) ⟨_, _, rfl, rfl⟩
  exact ⟨_, hthree.step (a := .set 4 40 fun _ => (0, 0)) ⟨_, _, rfl, rfl⟩, fun fresh => rfl⟩

end GemDroid.Utils.IntMap
