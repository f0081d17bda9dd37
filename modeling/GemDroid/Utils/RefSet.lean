import GemDroid.Lib.Probing
import GemDroid.Lib.Reach

/-! Sets of references (`android/utils/refset.c`).

An open hash table whose size is a power of two. Inside `AREFSET_FOREACH` a deletion leaves a mark
that is removed when the outermost loop ends; outside it empties the bucket, also if the search for
another item goes by it. The search that wraps around by a subtraction leaves a table of fewer
than eight buckets. -/
namespace GemDroid.Utils.RefSet
open Lib Lib.Probing Function List Option Nat

variable {max i j rounds p k depth : Nat}

abbrev Ptr := UInt64

variable {buckets buckets' : Nat → Ptr} {S : Finset Ptr} {item : Ptr}

def NULL : Ptr := 0

def DELETED : Ptr := 18446744073709551615

theorem null_ne_deleted : NULL ≠ DELETED := by decide

/-- `ARefSet`; the buckets behind `max` are not the table's. -/
structure ARefSet where
  buckets : Nat → Ptr
  num : Nat
  max : Nat
  iteration : Nat

open ARefSet

def init : ARefSet := ⟨fun _ => NULL, 0, 0, 0⟩

def hashItem (item : Ptr) : Nat := ((item.toNat % 4294967296) >>> 2) ^^^ (item.toNat >>> 32)

/-- The loop of `_arefSet_lookup`. There is no result if it leaves the table, or if it has seen
every bucket and does not end. -/
def lookupFrom (buckets : Nat → Ptr) (max : Nat) (item : Ptr) : Nat → Nat → Option Nat
  | 0, _ => none
  | rounds + 1, index =>
    if index ≥ max then none
    else if buckets index = item ∨ buckets index = NULL then some index
    else lookupFrom buckets max item rounds (if index + 5 ≥ max then index + 5 - max else index + 5)

def lookup (buckets : Nat → Ptr) (max : Nat) (item : Ptr) : Option Nat :=
  lookupFrom buckets max item max (hashItem item &&& (max - 1))

def lookupInsertFrom (buckets : Nat → Ptr) (max : Nat) (item : Ptr) : Nat → Nat → Option Nat → Option Nat
  | 0, _, _ => none
  | rounds + 1, index, insert =>
    let next := (index + 5) &&& (max - 1)
    if buckets index = NULL then some (insert.getD index)
    else if buckets index = DELETED then
      lookupInsertFrom buckets max item rounds next (if insert.isNone then some index else insert)
    else if buckets index = item then some index
    else lookupInsertFrom buckets max item rounds next insert

/-- `_arefSet_lookupInsert`: the item's bucket, or the first that it can be put into. -/
def lookupInsert (buckets : Nat → Ptr) (max : Nat) (item : Ptr) : Option Nat :=
  lookupInsertFrom buckets max item max (hashItem item &&& (max - 1)) none

/-- The loop of `_arefSet_resize` over the items. -/
def rehash (newSize : Nat) (items : List Ptr) (new : Nat → Ptr) : Option (Nat → Ptr) :=
  items.foldlM (fun new item => (lookup new newSize item).map fun index => Function.update new index item) new

/-- The loop of `_arefSet_removeDeferred` that finds the new size. -/
def shrink (num : Nat) : Nat → Nat → Nat
  | 0, newSize => newSize
  | rounds + 1, newSize => if 4 * num < newSize then shrink num rounds (newSize / 2) else newSize

namespace ARefSet

def has (s : ARefSet) (item : Ptr) : Option Bool :=
  if item = NULL ∨ s.max = 0 then some false
  else (lookup s.buckets s.max item).map fun index => s.buckets index = item

def resize (s : ARefSet) (newSize : Nat) : Option ARefSet :=
  (rehash newSize (elements NULL DELETED s.max s.buckets) fun _ => NULL).map fun buckets =>
    { s with buckets := buckets, max := newSize }

def reserve (s : ARefSet) : ARefSet :=
  if s.max = 0 then { s with buckets := fun _ => NULL, num := 0, max := 4 } else s

def put (s : ARefSet) (index : Nat) (item : Ptr) : ARefSet :=
  { s with buckets := Function.update s.buckets index item, num := s.num + 1 }

/-- More than 85 percent of the buckets are in use. -/
def Crowded (s : ARefSet) : Prop := 20 * s.num > 17 * s.max

instance (s : ARefSet) : Decidable s.Crowded := inferInstanceAs (Decidable (_ > _))

def add (s : ARefSet) (item : Ptr) : Option ARefSet :=
  if item = NULL then some s
  else if s.iteration ≠ 0 then none
  else
    (lookupInsert s.reserve.buckets s.reserve.max item).bind fun index =>
      if s.reserve.buckets index = item then some s.reserve
      else if (s.reserve.put index item).Crowded then
        (s.reserve.put index item).resize (s.reserve.max * 2 % 4294967296)
      else some (s.reserve.put index item)

def del (s : ARefSet) (item : Ptr) : Option ARefSet :=
  if item = NULL ∨ s.max = 0 then some s
  else
    (lookup s.buckets s.max item).bind fun index =>
      if s.buckets index ≠ item then some s
      else if s.iteration = 0 then
        let emptied := { s with buckets := Function.update s.buckets index NULL, num := s.num - 1 }
        if 4 * (s.num - 1) < s.max then resize emptied (s.max / 2) else some emptied
      else
        some { s with
          buckets := Function.update s.buckets index DELETED
          num := s.num - 1
          iteration := s.iteration ||| 1 }

def deferredSize (s : ARefSet) : Nat :=
  if shrink s.num s.max s.max < 4 then 4 else shrink s.num s.max s.max

/-- The marks are removed. -/
def sweep (s : ARefSet) : ARefSet :=
  { s with buckets := fun n => if s.buckets n = DELETED then NULL else s.buckets n, iteration := 0 }

/-- `_arefSet_removeDeferred`, at the end of the outermost loop. -/
def removeDeferred (s : ARefSet) : Option ARefSet :=
  if s.deferredSize ≠ s.max then s.sweep.resize s.deferredSize else some s.sweep

def endForeach (s : ARefSet) : Option ARefSet :=
  let left := { s with iteration := s.iteration - 2 }
  if s.iteration - 2 = 1 then left.removeDeferred else some left

end ARefSet

/-! ### Searches -/

/-- The order in which the buckets are tried for an item. -/
def path (max : Nat) (item : Ptr) (i : Nat) : Nat := (hashItem item + 5 * i) % max

theorem covers_path (k : Nat) (item : Ptr) : Covers (2 ^ k) (path (2 ^ k) item) := by
  apply Covers.of_inj
  · exact fun i _ => Nat.mod_lt _ (Nat.two_pow_pos k)
  · intro i hi j hj heq
    have hmod : 5 * i ≡ 5 * j [MOD 2 ^ k] := Nat.ModEq.add_left_cancel' (hashItem item) heq
    have hcoprime : Nat.gcd (2 ^ k) 5 = 1 := Nat.Coprime.pow_left k (by decide)
    have := Nat.ModEq.cancel_left_of_coprime hcoprime hmod
    rwa [Nat.ModEq, mod_eq_of_lt hi, mod_eq_of_lt hj] at this

theorem mask_eq (hpow : ∃ k, max = 2 ^ k) (n : Nat) : n &&& (max - 1) = n % max := by
  obtain ⟨k, rfl⟩ := hpow
  exact and_two_pow_sub_one_eq_mod n k

theorem path_lt (hpos : 0 < max) (item : Ptr) (i : Nat) : path max item i < max := mod_lt _ hpos

theorem path_succ (max : Nat) (item : Ptr) (i : Nat) : path max item (i + 1) = (path max item i + 5) % max := by
  rw [path, path, mod_add_mod, mul_succ, add_assoc]

/-- From its `i`-th step on, the search for an item ends at the `j`-th. -/
structure Ends (buckets : Nat → Ptr) (max : Nat) (item : Ptr) (i j : Nat) : Prop where
  le : i ≤ j
  last : buckets (path max item j) = item ∨ buckets (path max item j) = NULL
  before : ∀ k, i ≤ k → k < j → buckets (path max item k) ≠ item ∧ buckets (path max item k) ≠ NULL

section Search

theorem Ends.extend (h : Ends buckets max item (i + 1) j)
    (hne : ¬ (buckets (path max item i) = item ∨ buckets (path max item i) = NULL)) : Ends buckets max item i j := by
  refine ⟨by have := h.le; omega, h.last, fun k hk hkj => ?_⟩
  obtain rfl | hlt := hk.eq_or_lt
  · exact not_or.mp hne
  · exact h.before k hlt hkj

/-- Where the subtraction stays inside the table, it is the remainder. -/
theorem wrap_eq {index : Nat} (h : (if index + 5 ≥ max then index + 5 - max else index + 5) < max) :
    (if index + 5 ≥ max then index + 5 - max else index + 5) = (index + 5) % max := by
  split at h
  next hge => rw [if_pos hge, mod_eq_sub_mod hge, mod_eq_of_lt h]
  next hge => rw [if_neg hge, mod_eq_of_lt h]

theorem lookupFrom_some (h : lookupFrom buckets max item rounds (path max item i) = some p) :
    ∃ j, p = path max item j ∧ p < max ∧ j < i + rounds ∧ Ends buckets max item i j := by
  induction rounds generalizing i with
  | zero => cases h
  | succ rounds ih =>
    rw [lookupFrom] at h
    split at h
    next => cases h
    next hlt =>
      split at h
      next hend =>
        cases h
        exact ⟨i, rfl, by omega, by omega, le_rfl, hend, fun k hk hki => by omega⟩
      next hend =>
        have hin : (if path max item i + 5 ≥ max then path max item i + 5 - max else path max item i + 5) < max := by
          by_contra hout
          cases rounds with
          | zero => cases h
          | succ rounds =>
            rw [lookupFrom, if_pos (by omega)] at h
            cases h
        rw [wrap_eq hin, ← path_succ] at h
        obtain ⟨j, hp, hpmax, hj, hends⟩ := ih h
        exact ⟨j, hp, hpmax, by omega, hends.extend hend⟩

/-- In a table of eight buckets or more the search ends, if there is an empty bucket ahead. -/
theorem lookupFrom_isSome (hmax : 8 ≤ max) (hij : i ≤ j) (hj : j < i + rounds)
    (hnull : buckets (path max item j) = NULL) : (lookupFrom buckets max item rounds (path max item i)).isSome := by
  induction rounds generalizing i with
  | zero => omega
  | succ rounds ih =>
    have hlt := path_lt (show 0 < max by omega) item i
    rw [lookupFrom, if_neg (by omega)]
    split
    next => rfl
    next hend =>
      have hne : i ≠ j := fun heq => hend (.inr (heq ▸ hnull))
      rw [wrap_eq (by split <;> omega), ← path_succ]
      exact ih (by omega) (by omega)

/-- Between the bucket where the search for an item begins and the end of the table there is one that
is empty or has the item; in a table of one or two buckets it is the first of them. -/
def Ahead (buckets : Nat → Ptr) (max : Nat) (item : Ptr) : Prop :=
  ∃ n < max, hashItem item &&& (max - 1) ≤ n ∧ (max < 4 → hashItem item &&& (max - 1) = n) ∧
    (buckets n = item ∨ buckets n = NULL)

/-- In a table of four buckets the search goes from one to the next, up to the end of the table. -/
theorem lookupFrom_four_isSome {index n : Nat} (hn : n < 4) (hle : index ≤ n) (hrounds : n < index + rounds)
    (hend : buckets n = item ∨ buckets n = NULL) : (lookupFrom buckets 4 item rounds index).isSome := by
  induction rounds generalizing index with
  | zero => omega
  | succ rounds ih =>
    rw [lookupFrom, if_neg (by omega)]
    split
    next => rfl
    next hne =>
      have hlt : index < n := hle.lt_of_ne fun heq => hne (heq ▸ hend)
      rw [if_pos (by omega)]
      exact ih (by omega) (by omega)

section
variable (hpow : ∃ k, max = 2 ^ k)
include hpow

theorem lookup_isSome_of_ahead (hmax : max < 8) (h : Ahead buckets max item) : (lookup buckets max item).isSome := by
  obtain ⟨n, hn, hle, hfirst, hend⟩ := h
  obtain ⟨k, rfl⟩ := hpow
  have hk : k < 3 := (Nat.pow_lt_pow_iff_right (by decide)).mp (show 2 ^ k < 2 ^ 3 from hmax)
  by_cases htwo : k = 2
  · subst htwo
    exact lookupFrom_four_isSome hn hle (by omega) hend
  · have hlt : 2 ^ k < 4 := (Nat.pow_lt_pow_iff_right (by decide)).mpr (show k < 2 by omega)
    obtain ⟨rounds, hrounds⟩ : ∃ rounds, 2 ^ k = rounds + 1 := ⟨2 ^ k - 1, by omega⟩
    rw [lookup, hfirst hlt, hrounds, lookupFrom, if_neg (by omega), if_pos hend]
    rfl

theorem lookup_eq : lookup buckets max item = lookupFrom buckets max item max (path max item 0) := by
  rw [lookup, mask_eq hpow]
  rfl

theorem lookup_some (h : lookup buckets max item = some p) :
    ∃ j < max, p = path max item j ∧ p < max ∧ Ends buckets max item 0 j := by
  rw [lookup_eq hpow] at h
  obtain ⟨j, hp, hpmax, hj, hends⟩ := lookupFrom_some h
  exact ⟨j, by omega, hp, hpmax, hends⟩

theorem lookup_isSome (hmax : 8 ≤ max) (hempty : ∃ n < max, buckets n = NULL) : (lookup buckets max item).isSome := by
  obtain ⟨k, rfl⟩ := hpow
  obtain ⟨n, hn, hnull⟩ := hempty
  obtain ⟨j, hj, rfl⟩ := (covers_path k item).onto n hn
  rw [lookup_eq ⟨k, rfl⟩]
  exact lookupFrom_isSome hmax (zero_le j) (by omega) hnull

/-- Without marks, the search for a bucket to put an item into ends where the other one would if
it stayed inside the table. -/
theorem lookupInsertFrom_some (hmarks : ∀ n < max, buckets n ≠ DELETED)
    (hij : i ≤ j) (hj : j < i + rounds) (hnull : buckets (path max item j) = NULL) :
    ∃ l < i + rounds, lookupInsertFrom buckets max item rounds (path max item i) none = some (path max item l) ∧
      Ends buckets max item i l := by
  have hpos : 0 < max := by
    obtain ⟨k, rfl⟩ := hpow
    exact Nat.two_pow_pos k
  induction rounds generalizing i with
  | zero => omega
  | succ rounds ih =>
    rw [lookupInsertFrom]
    by_cases hempty : buckets (path max item i) = NULL
    · rw [if_pos hempty]
      exact ⟨i, by omega, rfl, le_rfl, .inr hempty, fun k hk hki => by omega⟩
    rw [if_neg hempty, if_neg (hmarks _ (path_lt hpos item i))]
    by_cases hfound : buckets (path max item i) = item
    · rw [if_pos hfound]
      exact ⟨i, by omega, rfl, le_rfl, .inl hfound, fun k hk hki => by omega⟩
    have hne : i ≠ j := fun heq => hempty (heq ▸ hnull)
    obtain ⟨l, hl, hsome, hends⟩ := ih (i := i + 1) (by omega) (by omega)
    rw [if_neg hfound, mask_eq hpow, ← path_succ]
    exact ⟨l, by omega, hsome, hends.extend (not_or.mpr ⟨hfound, hempty⟩)⟩

end

end Search

/-! ### Tables -/

abbrev Table (max : Nat) (buckets : Nat → Ptr) (S : Finset Ptr) : Prop :=
  Holds NULL DELETED max (path max) buckets S

/-- A pointer that may be put into a set. -/
abbrev Item (item : Ptr) : Prop := Valid NULL DELETED item

section Table

theorem found_iff (h : Table max buckets S) (hitem : Item item) (hlt : path max item j < max)
    (hends : Ends buckets max item 0 j) : buckets (path max item j) = item ↔ item ∈ S := by
  constructor
  · intro hfound
    exact (h.mem item).mpr ⟨hitem, _, hlt, hfound⟩
  · intro hmem
    obtain ⟨l, -, hl, hbefore⟩ := h.reached item hmem
    obtain hjl | hlj := lt_or_ge j l
    · exact hends.last.resolve_right (hbefore j hjl)
    · obtain rfl | hlt' := hlj.eq_or_lt
      · exact hl
      · exact absurd hl (hends.before l (zero_le l) hlt').1

theorem free_of_ends (hends : Ends buckets max item 0 j) (hne : buckets (path max item j) ≠ item) :
    Free NULL DELETED buckets (path max item) j := by
  have hnull := hends.last.resolve_left hne
  exact ⟨fun hvalid => hvalid.1 hnull, fun k hk => (hends.before k (zero_le k) hk).2⟩

theorem exists_empty (h : Table max buckets S) (hmarks : ∀ n < max, buckets n ≠ DELETED) (hcard : S.card < max) :
    ∃ n < max, buckets n = NULL := by
  by_contra hall
  push Not at hall
  have := h.le_card fun n hn => ⟨hall n hn, hmarks n hn⟩
  omega

theorem elements_congr (h : ∀ n, buckets n = buckets' n ∨ ¬ Item (buckets n) ∧ ¬ Item (buckets' n)) :
    elements NULL DELETED max buckets = elements NULL DELETED max buckets' := by
  rw [elements, elements]
  induction max with
  | zero => rfl
  | succ n ih =>
    rw [range_succ, map_append, map_append, filter_append, filter_append, ih]
    congr 1
    obtain heq | ⟨hl, hr⟩ := h n
    · rw [map_singleton, map_singleton, heq]
    · simp [hl, hr]

theorem two_pow_le {m : Nat} (h : 2 ^ k < 2 ^ (m + 1)) : 2 ^ k ≤ 2 ^ m := by
  have := (Nat.pow_lt_pow_iff_right (by decide)).mp h
  exact Nat.pow_le_pow_right (by decide) (by omega)

theorem rehash_right (hmax : max = 2 ^ k) (xs : List Ptr) (h : Table max buckets S)
    (hmarks : ∀ n, buckets n ≠ DELETED) (hvalid : ∀ x ∈ xs, Item x) (hnew : ∀ x ∈ xs, x ∉ S) (hnodup : xs.Nodup)
    (hroom : S.card + xs.length < max)
    (hends : 8 ≤ max ∨ (∀ n, buckets n = NULL) ∧ xs.length ≤ 1 ∨ (rehash max xs buckets).isSome) :
    ∃ new, rehash max xs buckets = some new ∧ (∀ n, new n ≠ DELETED) ∧ Table max new (S ∪ xs.toFinset) := by
  induction xs generalizing buckets S with
  | nil => exact ⟨buckets, rfl, hmarks, by simpa using h⟩
  | cons x xs ih =>
    obtain ⟨hxs, hnodup'⟩ := nodup_cons.mp hnodup
    rw [length_cons] at hroom hends
    have hlookup : (lookup buckets max x).isSome := by
      obtain h8 | ⟨hall, -⟩ | hsome := hends
      · exact lookup_isSome ⟨k, hmax⟩ h8 (exists_empty h (fun n _ => hmarks n) (by omega))
      · obtain ⟨m, rfl⟩ : ∃ m, max = m + 1 := ⟨max - 1, by omega⟩
        rw [lookup_eq ⟨k, hmax⟩, lookupFrom, if_neg (not_le.mpr (path_lt (succ_pos m) x 0)), if_pos (.inr (hall _))]
        rfl
      · rw [rehash, foldlM_cons] at hsome
        cases hl : lookup buckets max x with
        | none => rw [hl] at hsome; cases hsome
        | some p => rfl
    obtain ⟨p, hp⟩ := isSome_iff_exists.mp hlookup
    obtain ⟨j, hj, rfl, hlt, hjends⟩ := lookup_some ⟨k, hmax⟩ hp
    have hxvalid := hvalid x (by simp)
    have hxnew := hnew x (by simp)
    have hne := mt (found_iff h hxvalid hlt hjends).mp hxnew
    have hins := h.insert hxvalid hxnew hj (hmax ▸ covers_path k x) (free_of_ends hjends hne)
    have hrehash : rehash max (x :: xs) buckets = rehash max xs (update buckets (path max x j) x) := by
      rw [rehash, foldlM_cons, hp]
      rfl
    rw [hrehash, toFinset_cons, Finset.union_insert, ← Finset.insert_union]
    rw [hrehash] at hends
    refine ih hins (fun n => update_ne hxvalid.2 (hmarks n)) (fun y hy => hvalid y (by simp [hy])) (fun y hy => ?_) hnodup'
      (by rw [Finset.card_insert_of_notMem hxnew]; omega) ?_
    · rw [Finset.mem_insert, not_or]
      exact ⟨fun heq => hxs (heq ▸ hy), hnew y (by simp [hy])⟩
    · obtain h8 | ⟨-, hone⟩ | hsome := hends
      · exact .inl h8
      · obtain rfl : xs = [] := eq_nil_of_length_eq_zero (by omega)
        exact .inr (.inr rfl)
      · exact .inr (.inr hsome)

/-- The first of two items goes to where its search begins, the second there too or to the next. -/
theorem rehash_two {x y : Ptr} (h : ¬ (hashItem x &&& 3 = 3 ∧ hashItem y &&& 3 = 3)) :
    (rehash 4 [x, y] fun _ => NULL).isSome := by
  have hlt : ∀ n, n &&& 3 < 4 := fun n => Nat.and_lt_two_pow n (n := 2) (by decide)
  have hx : lookup (fun _ => NULL) 4 x = some (hashItem x &&& 3) := by
    rw [lookup, lookupFrom, if_neg (not_le.mpr (hlt _)), if_pos (.inr rfl)]
  have hy : (lookup (update (fun _ => NULL) (hashItem x &&& 3) x) 4 y).isSome := by
    refine lookup_isSome_of_ahead ⟨2, rfl⟩ (by decide) ?_
    have hxlt := hlt (hashItem x)
    have hylt := hlt (hashItem y)
    by_cases heq : hashItem y &&& 3 = hashItem x &&& 3
    · exact ⟨(hashItem y &&& 3) + 1, by omega, Nat.le_succ _, fun hfew => absurd hfew (by decide),
        .inr (update_of_ne (by omega) _ _)⟩
    · exact ⟨hashItem y &&& 3, hylt, le_rfl, fun _ => rfl, .inr (update_of_ne heq _ _)⟩
  rw [rehash, foldlM_cons, hx, Option.map_some]
  obtain ⟨p, hp⟩ := isSome_iff_exists.mp hy
  exact isSome_iff_exists.mpr ⟨update (update (fun _ => NULL) (hashItem x &&& 3) x) p y, by simp [hp]⟩

/-- No search for an item of the table goes by a mark. -/
def Unblocked (max : Nat) (buckets : Nat → Ptr) : Prop :=
  ∀ item, Item item → ∀ j < max, buckets (path max item j) = item → ∀ i < j, buckets (path max item i) ≠ DELETED

theorem table_sweep (h : Table max buckets S) (hclear : Unblocked max buckets)
    (hsweep : ∀ n < max, buckets' n = if buckets n = DELETED then NULL else buckets n) : Table max buckets' S := by
  have hkeep : ∀ n < max, ∀ x, Item x → (buckets' n = x ↔ buckets n = x) := by
    intro n hn x hx
    rw [hsweep n hn]
    split
    next hmark => exact ⟨fun he => absurd he.symm hx.1, fun he => absurd (he.symm.trans hmark) hx.2⟩
    next => exact Iff.rfl
  refine ⟨fun x => ?_, fun n hn m hm hvalid heq => ?_, fun x hx => ?_⟩
  · rw [h.mem]
    exact and_congr_right fun hx => exists_congr fun n => and_congr_right fun hn => (hkeep n hn x hx).symm
  · have hn' := (hkeep n hn _ hvalid).mp rfl
    exact h.unique n hn m hm (hn' ▸ hvalid) (hn'.trans ((hkeep m hm _ hvalid).mp heq.symm).symm)
  · obtain ⟨j, hj, hitem, hbefore⟩ := h.reached x hx
    have hvalid := ((h.mem x).mp hx).1
    have hlt : ∀ i, path max x i < max := path_lt (show 0 < max by omega) x
    refine ⟨j, hj, (hkeep _ (hlt j) x hvalid).mpr hitem, fun i hi => ?_⟩
    rw [hsweep _ (hlt i), if_neg (hclear x hvalid j hj hitem i hi)]
    exact hbefore i hi

end Table

/-! ### Sets -/

/-- What holds of a set between calls: `depth` loops are running. -/
structure Right (s : ARefSet) (depth : Nat) (S : Finset Ptr) : Prop where
  pow : s.max = 0 ∨ ∃ k, s.max = 2 ^ k
  table : Table s.max s.buckets S
  num : s.num = S.card
  empty : 0 < s.max → ∃ n < s.max, s.buckets n = NULL
  small : s.max < 2147483648
  iteration : s.iteration = 2 * depth ∧ (∀ n < s.max, s.buckets n ≠ DELETED) ∨ s.iteration = 2 * depth + 1 ∧ 0 < depth

section Right
variable {s : ARefSet}

theorem right_init : Right init 0 ∅ :=
  ⟨.inl rfl, .empty fun n hn => absurd hn (not_lt_zero n), rfl, fun h => absurd h (lt_irrefl 0), by decide,
    .inl ⟨rfl, fun n hn => absurd hn (not_lt_zero n)⟩⟩

section
variable (h : Right s depth S)
include h

theorem Right.card_lt (hpos : 0 < s.max) : S.card < s.max := by
  obtain ⟨n, hn, hnull⟩ := h.empty hpos
  exact h.table.card_lt hn fun hvalid => hvalid.1 hnull

theorem Right.notMem (hzero : s.max = 0) : item ∉ S := by
  rw [h.table.mem]
  rintro ⟨-, n, hn, -⟩
  omega

theorem Right.outside (hdepth : depth = 0) : s.iteration = 0 ∧ ∀ n < s.max, s.buckets n ≠ DELETED := by
  obtain ⟨hi, hmarks⟩ | ⟨-, hpos⟩ := h.iteration
  · exact ⟨by omega, hmarks⟩
  · omega

theorem Right.lookup (hpos : 0 < s.max) (hitem : Item item)
    (hsmall : s.max < 8 → Ahead s.buckets s.max item) :
    ∃ p < s.max, RefSet.lookup s.buckets s.max item = some p ∧ (s.buckets p = item ↔ item ∈ S) := by
  have hpow : ∃ k, s.max = 2 ^ k := h.pow.resolve_left (by omega)
  have hsome : (RefSet.lookup s.buckets s.max item).isSome := by
    obtain hlt | hge := lt_or_ge s.max 8
    · exact lookup_isSome_of_ahead hpow hlt (hsmall hlt)
    · exact lookup_isSome hpow hge (h.empty hpos)
  obtain ⟨p, hp⟩ := isSome_iff_exists.mp hsome
  obtain ⟨j, -, rfl, hlt, hends⟩ := lookup_some hpow hp
  exact ⟨_, hlt, hp, found_iff h.table hitem hlt hends⟩

theorem Right.has (hitem : Item item) (hsmall : 0 < s.max → s.max < 8 → Ahead s.buckets s.max item) :
    s.has item = some (decide (item ∈ S)) := by
  rw [ARefSet.has]
  by_cases hzero : s.max = 0
  · rw [if_pos (.inr hzero), decide_eq_false (h.notMem hzero)]
  · obtain ⟨p, -, hp, hfound⟩ := h.lookup (by omega) hitem (hsmall (by omega))
    rw [if_neg (not_or.mpr ⟨hitem.1, hzero⟩), hp]
    simp [hfound]

end

theorem resize_right (newSize : Nat) (htable : Table s.max buckets S)
    (hsame : ∀ n, s.buckets n = buckets n ∨ ¬ Item (s.buckets n) ∧ ¬ Item (buckets n)) (hnum : s.num = S.card)
    (hiter : s.iteration = 0) (hpow : newSize = 0 ∨ ∃ k, newSize = 2 ^ k) (hsmall : newSize < 2147483648)
    (hroom : S.card = 0 ∨ S.card < newSize) (hends : 8 ≤ newSize ∨ S.card ≤ 1 ∨ (s.resize newSize).isSome) :
    ∃ s', s.resize newSize = some s' ∧ Right s' 0 S := by
  rw [resize, elements_congr hsame] at *
  have hempty : Table newSize (fun _ => NULL) ∅ := .empty fun _ _ => rfl
  have hlen := htable.length_elements
  obtain ⟨new, hrehash, hmarks, hnew⟩ : ∃ new, rehash newSize (elements NULL DELETED s.max buckets) (fun _ => NULL) =
      some new ∧ (∀ n, new n ≠ DELETED) ∧ Table newSize new S := by
    have hset := htable.toFinset_elements
    obtain hzero | ⟨k, hk⟩ := hpow
    · have hnil : elements NULL DELETED s.max buckets = [] := eq_nil_of_length_eq_zero (by omega)
      refine ⟨fun _ => NULL, by rw [hnil]; rfl, fun _ => null_ne_deleted, ?_⟩
      rw [← hset, hnil]
      exact hempty
    have hpos : 0 < newSize := hk ▸ Nat.two_pow_pos k
    have := rehash_right hk (elements NULL DELETED s.max buckets) hempty (fun _ => null_ne_deleted)
      (fun x hx => ((htable.mem x).mp (htable.mem_elements.mp hx)).1) (fun x _ => Finset.notMem_empty x)
      htable.nodup_elements (by rw [hlen, Finset.card_empty]; omega) ?_
    · rwa [Finset.empty_union, hset] at this
    · obtain h8 | hone | hsome := hends
      · exact .inl h8
      · exact .inr (.inl ⟨fun _ => rfl, by omega⟩)
      · exact .inr (.inr (by simpa using hsome))
  refine ⟨{ s with buckets := new, max := newSize }, by rw [hrehash]; rfl, hpow, hnew, hnum, fun hpos => ?_, hsmall,
    .inl ⟨hiter, fun n _ => hmarks n⟩⟩
  have hlt : S.card < newSize := by
    obtain hzero | hlt := hroom
    · exact hzero ▸ hpos
    · exact hlt
  exact exists_empty hnew (fun n _ => hmarks n) hlt

/-- If the item is new and the table too full with it, the table grows to fewer than 2^31 buckets;
and where it grows from two buckets to four, the item and the one that is there do not both begin at
the last of the four. -/
def AddMeets (s : ARefSet) (item : Ptr) : Prop :=
  (∀ n < s.reserve.max, s.reserve.buckets n ≠ item) → 20 * (s.reserve.num + 1) > 17 * s.reserve.max →
    s.reserve.max * 2 < 2147483648 ∧ (s.reserve.max = 2 → ∀ n < 2, Item (s.reserve.buckets n) →
      ¬ (hashItem (s.reserve.buckets n) &&& 3 = 3 ∧ hashItem item &&& 3 = 3))

theorem Right.reserve (h : Right s 0 S) : Right s.reserve 0 S ∧ 0 < s.reserve.max := by
  rw [ARefSet.reserve]
  split
  next hzero =>
    have hcard := h.table.card_le
    have hS : S = ∅ := Finset.card_eq_zero.mp (by omega)
    subst hS
    refine ⟨⟨.inr ⟨2, rfl⟩, .empty fun _ _ => rfl, rfl, fun _ => ⟨0, succ_pos 3, rfl⟩, ?_, ?_⟩, succ_pos 3⟩
    · exact Nat.lt_of_sub_pos (Nat.succ_pos _)
    · exact h.iteration.imp (fun hi => ⟨hi.1, fun _ _ => null_ne_deleted⟩) (fun hi => hi)
  next hne => exact ⟨h, by omega⟩

/-- The two items of a table that grows from two buckets to four. -/
theorem Right.resize_four (h : Right s depth S) (hmax : s.max = 2) (hmem : item ∉ S)
    (hins : Table s.max (s.put p item).buckets (insert item S))
    (hmeets : ∀ n < 2, Item (s.buckets n) → ¬ (hashItem (s.buckets n) &&& 3 = 3 ∧ hashItem item &&& 3 = 3)) :
    (insert item S).card ≤ 1 ∨ ((s.put p item).resize 4).isSome := by
  have hcard := h.card_lt (by omega)
  by_cases hone : (insert item S).card ≤ 1
  · exact .inl hone
  have htwo : (insert item S).card = 2 := by
    rw [Finset.card_insert_of_notMem hmem] at hone ⊢
    omega
  obtain ⟨x, y, hxy⟩ := length_eq_two.mp (hins.length_elements.trans htwo)
  have hitems : ∀ z ∈ [x, y], z = item ∨ z ∈ S := fun z hz =>
    Finset.mem_insert.mp (hins.mem_elements.mp (hxy ▸ hz))
  have hdistinct : x ≠ y := fun heq => (nodup_cons.mp (hxy ▸ hins.nodup_elements)).1 (heq ▸ mem_cons_self)
  have hold : ∀ z ∈ S, ¬ (hashItem z &&& 3 = 3 ∧ hashItem item &&& 3 = 3) := by
    intro z hz
    obtain ⟨hzitem, n, hn, rfl⟩ := (h.table.mem z).mp hz
    exact hmeets n (by omega) hzitem
  have hrehash : (rehash 4 [x, y] fun _ => NULL).isSome := by
    refine rehash_two fun ⟨hx, hy⟩ => ?_
    obtain rfl | hxS := hitems x mem_cons_self
    · exact hold y ((hitems y (mem_cons_of_mem _ mem_cons_self)).resolve_left hdistinct.symm) ⟨hy, hx⟩
    obtain rfl | hyS := hitems y (mem_cons_of_mem _ mem_cons_self)
    · exact hold x hxS ⟨hx, hy⟩
    · have := Finset.one_lt_card.mpr ⟨x, hxS, y, hyS, hdistinct⟩
      omega
  refine .inr ?_
  rw [resize, show elements NULL DELETED (s.put p item).max (s.put p item).buckets = [x, y] from hxy]
  simpa using hrehash

theorem Right.add (h : Right s 0 S) (hitem : Item item) (hmeets : AddMeets s item) :
    ∃ s', s.add item = some s' ∧ Right s' 0 (insert item S) := by
  obtain ⟨hr, hpos⟩ := h.reserve
  rw [ARefSet.add, if_neg hitem.1, if_neg (not_not.mpr (h.outside rfl).1)]
  obtain ⟨hiter, hmarks⟩ := hr.outside rfl
  unfold AddMeets at hmeets
  generalize s.reserve = r at *
  obtain ⟨k, hk⟩ : ∃ k, r.max = 2 ^ k := hr.pow.resolve_left (by omega)
  have hcovers : Covers r.max (path r.max item) := hk ▸ covers_path k item
  obtain ⟨n, hn, hnull⟩ := hr.empty hpos
  obtain ⟨i, hi, rfl⟩ := hcovers.onto n hn
  obtain ⟨j, hj, hlookup, hends⟩ := lookupInsertFrom_some ⟨k, hk⟩ hmarks (zero_le i)
    (show i < 0 + r.max by omega) hnull
  have hlookup' : lookupInsert r.buckets r.max item = some (path r.max item j) := by
    rw [lookupInsert, mask_eq ⟨k, hk⟩]
    exact hlookup
  have hfound := found_iff hr.table hitem (hcovers.lt j (by omega)) hends
  rw [hlookup', bind_some]
  by_cases hmem : item ∈ S
  · rw [if_pos (hfound.mpr hmem), Finset.insert_eq_of_mem hmem]
    exact ⟨r, rfl, hr⟩
  have hne := mt hfound.mp hmem
  have hins : Table r.max (r.put (path r.max item j) item).buckets (insert item S) :=
    hr.table.insert hitem hmem (show j < r.max by omega) hcovers (free_of_ends hends hne)
  have hnum : (r.put (path r.max item j) item).num = (insert item S).card := by
    rw [Finset.card_insert_of_notMem hmem, ← hr.num]
    rfl
  have hcard := hr.card_lt hpos
  rw [if_neg hne]
  split
  next hcrowded =>
    have hnew : ∀ n < r.max, r.buckets n ≠ item := fun n hn heq => hmem ((hr.table.mem item).mpr ⟨hitem, n, hn, heq⟩)
    obtain ⟨hsmall, hfour⟩ := hmeets hnew hcrowded
    rw [mod_eq_of_lt (by omega)]
    refine resize_right _ hins (fun _ => .inl rfl) hnum hiter (.inr ⟨k + 1, by rw [hk, pow_succ]⟩) hsmall
      (.inr (by rw [Finset.card_insert_of_notMem hmem]; omega)) ?_
    obtain hlt | hge := lt_or_ge (r.max * 2) 8
    · by_cases htwo : r.max = 2
      · have hfour := hr.resize_four htwo hmem hins (hfour htwo)
        rw [show r.max * 2 = 4 by omega]
        exact .inr hfour
      · -- the only other table that grows to fewer than eight buckets has one
        have := two_pow_le (k := k) (m := 1) (by omega)
        rw [Finset.card_insert_of_notMem hmem]
        exact .inr (.inl (by omega))
    · exact .inl hge
  next hroom =>
    have hmarks' : ∀ n < r.max, (r.put (path r.max item j) item).buckets n ≠ DELETED :=
      fun n hn => update_ne hitem.2 (hmarks n hn)
    have hless : (insert item S).card < r.max := by
      rw [ARefSet.Crowded, hnum] at hroom
      have : (r.put (path r.max item j) item).max = r.max := rfl
      omega
    exact ⟨_, rfl, hr.pow, hins, hnum, fun _ => exists_empty hins hmarks' hless, hr.small, .inl ⟨hiter, hmarks'⟩⟩

/-- A search in a table of fewer than eight buckets does not leave it; and outside loops an item
is deleted only if the table is rehashed, or no search for another item goes by its bucket. -/
def DelMeets (s : ARefSet) (item : Ptr) : Prop :=
  (0 < s.max → s.max < 8 → Ahead s.buckets s.max item) ∧
    (s.iteration = 0 → ∀ p < s.max, s.buckets p = item →
      ¬ 4 * (s.num - 1) < s.max → Unblocked s.max (Function.update s.buckets p DELETED))

/-- Emptying a bucket is leaving a mark and removing it, where there are no other marks. -/
theorem empty_eq_sweep (hmarks : ∀ n < max, buckets n ≠ DELETED) : ∀ n < max, update buckets p NULL n =
      if update buckets p DELETED n = DELETED then NULL else update buckets p DELETED n := by
  intro n hn
  by_cases hnp : n = p
  · rw [hnp, update_self, update_self, if_pos rfl]
  · rw [update_of_ne hnp, update_of_ne hnp, if_neg (hmarks n hn)]

/-- An item that is deleted: outside loops, or inside one with a mark in its bucket. -/
theorem Right.del (h : Right s depth S) (hitem : Item item) (hmeets : DelMeets s item) :
    ∃ s', s.del item = some s' ∧ Right s' depth (S.erase item) ∧
      (0 < depth → s'.max = s.max ∧ ∀ n < s.max, s'.buckets n = if s.buckets n = item then DELETED else s.buckets n) := by
  rw [ARefSet.del]
  have hsame : item ∉ S → ∀ n < s.max, s.buckets n = if s.buckets n = item then DELETED else s.buckets n := by
    intro hnot n hn
    rw [if_neg fun heq => hnot ((h.table.mem item).mpr ⟨hitem, n, hn, heq⟩)]
  by_cases hzero : s.max = 0
  · have hnot : item ∉ S := h.notMem hzero
    rw [if_pos (.inr hzero), Finset.erase_eq_of_notMem hnot]
    exact ⟨s, rfl, h, fun _ => ⟨rfl, hsame hnot⟩⟩
  obtain ⟨p, hlt, hp, hfound⟩ := h.lookup (by omega) hitem (hmeets.1 (by omega))
  rw [if_neg (not_or.mpr ⟨hitem.1, hzero⟩), hp, bind_some]
  by_cases hmem : item ∈ S
  · have hbucket := hfound.mpr hmem
    have hcard : (S.erase item).card = s.num - 1 := by rw [Finset.card_erase_of_mem hmem, h.num]
    have hmark : Table s.max (update s.buckets p DELETED) (S.erase item) :=
      h.table.erase (by decide) hlt hbucket
    obtain ⟨k, hk⟩ := h.pow.resolve_left hzero
    rw [if_neg (not_not.mpr hbucket)]
    split
    next hiter =>
      -- outside loops
      obtain rfl : depth = 0 := by
        have := h.iteration
        omega
      have hmarks := (h.outside rfl).2
      have hempty : ∀ n < s.max, update s.buckets p NULL n ≠ DELETED :=
        fun n hn => update_ne null_ne_deleted (hmarks n hn)
      split
      next hfew =>
        have hsame : ∀ n, update s.buckets p NULL n = update s.buckets p DELETED n ∨
            ¬ Item (update s.buckets p NULL n) ∧ ¬ Item (update s.buckets p DELETED n) := by
          intro n
          by_cases hnp : n = p
          · subst hnp
            rw [update_self, update_self]
            exact .inr ⟨by decide, by decide⟩
          · rw [update_of_ne hnp, update_of_ne hnp]
            exact .inl rfl
        have hresize := resize_right (s := { s with buckets := update s.buckets p NULL, num := s.num - 1 })
          (s.max / 2) hmark hsame hcard.symm hiter ?_ (by have := h.small; omega) (by omega) ?_
        · obtain ⟨s', hs', hright⟩ := hresize
          exact ⟨s', hs', hright, fun hd => absurd hd (lt_irrefl 0)⟩
        · cases k with
          | zero => exact .inl (by rw [hk]; rfl)
          | succ k => exact .inr ⟨k, by rw [hk, pow_succ, Nat.mul_div_cancel _ (by decide)]⟩
        · -- a table that gets fewer than eight buckets has one item at most
          obtain h8 | hlow := le_or_gt 8 (s.max / 2)
          · exact .inl h8
          · refine .inr (.inl ?_)
            have := two_pow_le (k := k) (m := 3) (by omega)
            omega
      next hmany =>
        have hsweep := table_sweep hmark (hmeets.2 hiter p hlt hbucket hmany) (empty_eq_sweep hmarks)
        refine ⟨_, rfl, ⟨h.pow, hsweep, hcard.symm, fun _ => ⟨p, hlt, update_self ..⟩, h.small,
          .inl ⟨hiter, hempty⟩⟩, fun hd => absurd hd (lt_irrefl 0)⟩
    next hiter =>
      -- inside a loop
      refine ⟨_, rfl, ⟨h.pow, hmark, hcard.symm, fun hpos => ?_, h.small, .inr ?_⟩, fun _ => ⟨rfl, fun n hn => ?_⟩⟩
      · obtain ⟨n, hn, hnull⟩ := h.empty hpos
        have hnp : n ≠ p := fun heq => hitem.1 (hbucket.symm.trans (heq ▸ hnull))
        exact ⟨n, hn, (update_of_ne hnp _ _).trans hnull⟩
      · have hor : ∀ i, (2 * i ||| 1) = 2 * i + 1 ∧ (2 * i + 1 ||| 1) = 2 * i + 1 := by
          intro i
          have h1 : (2 * i ||| 1) = 2 * i + 1 := (two_pow_add_eq_or_of_lt (i := 1) (by decide) i).symm
          exact ⟨h1, by rw [← h1, Nat.or_assoc, Nat.or_self]⟩
        obtain ⟨hi, -⟩ | ⟨hi, hd⟩ := h.iteration
        · exact ⟨by simp [hi, (hor depth).1], by omega⟩
        · exact ⟨by simp [hi, (hor depth).2], hd⟩
      · show update s.buckets p DELETED n = _
        rw [update_apply]
        have hiff : n = p ↔ s.buckets n = item := by
          refine ⟨fun heq => heq ▸ hbucket, fun heq => ?_⟩
          exact h.table.unique n hn p hlt (heq.symm ▸ hitem) (heq.trans hbucket.symm)
        simp [hiff]
  · rw [if_pos (mt hfound.mp hmem), Finset.erase_eq_of_notMem hmem]
    exact ⟨s, rfl, h, fun _ => ⟨rfl, hsame hmem⟩⟩

theorem shrink_right (num : Nat) (rounds : Nat) {size : Nat} (hpow : size = 0 ∨ ∃ k, size = 2 ^ k) :
    (shrink num rounds size = 0 ∨ ∃ k, shrink num rounds size = 2 ^ k) ∧ shrink num rounds size ≤ size ∧
      (shrink num rounds size = size ∨ num = 0 ∨ 2 * num < shrink num rounds size) := by
  induction rounds generalizing size with
  | zero => exact ⟨hpow, le_rfl, .inl rfl⟩
  | succ rounds ih =>
    rw [shrink]
    split
    next hlt =>
      have hhalf : size / 2 = 0 ∧ num = 0 ∨ (∃ k, size / 2 = 2 ^ k) ∧ 2 * num < size / 2 := by
        obtain rfl | ⟨k, rfl⟩ := hpow
        · omega
        cases k with
        | zero => exact .inl ⟨rfl, by omega⟩
        | succ k =>
          rw [pow_succ, Nat.mul_div_cancel _ (by decide)] at *
          exact .inr ⟨⟨k, rfl⟩, by omega⟩
      obtain ⟨hp, hle, hlow⟩ := @ih (size / 2) (hhalf.imp (·.1) (·.1))
      exact ⟨hp, by omega, .inr (by omega)⟩
    next => exact ⟨hpow, le_rfl, .inl rfl⟩

/-- The end of the outermost loop, if items were deleted: the table is rehashed, or no search
goes by a mark. -/
theorem Right.removeDeferred (h : Right s 1 S) (hmeets : s.deferredSize = s.max → Unblocked s.max s.buckets) :
    ∃ s', ({ s with iteration := 1 } : ARefSet).removeDeferred = some s' ∧ Right s' 0 S := by
  have hsize : ({ s with iteration := 1 } : ARefSet).deferredSize = s.deferredSize := rfl
  rw [ARefSet.removeDeferred, hsize]
  have hnum := h.num
  have hmarks : ∀ n, (if s.buckets n = DELETED then NULL else s.buckets n) ≠ DELETED := by
    intro n
    split
    · decide
    · assumption
  split
  next hne =>
    have hsame : ∀ n, s.sweep.buckets n = s.buckets n ∨ ¬ Item (s.sweep.buckets n) ∧ ¬ Item (s.buckets n) := by
      intro n
      rw [sweep]
      by_cases hmark : s.buckets n = DELETED
      · simp only [hmark, if_true]
        exact .inr ⟨by decide, by decide⟩
      · exact .inl (if_neg hmark)
    obtain ⟨hpow, hle, hlow⟩ := shrink_right s.num s.max h.pow
    have hcard : s.max = 0 ∧ S.card = 0 ∨ S.card < s.max := by
      have hle := h.table.card_le
      obtain hzero | hpos := Nat.eq_zero_or_pos s.max
      · exact .inl ⟨hzero, by omega⟩
      · exact .inr (h.card_lt hpos)
    rw [deferredSize] at hne ⊢
    change _ ≠ s.max at hne
    refine resize_right (s := s.sweep) (if shrink s.num s.max s.max < 4 then 4 else shrink s.num s.max s.max)
      h.table hsame hnum rfl ?_ ?_ ?_ ?_
    · split
      next => exact .inr ⟨2, rfl⟩
      next => exact hpow
    · have := h.small
      split <;> omega
    · split at hne <;> split <;> omega
    · -- a table that gets four buckets has one item at most
      split at hne
      next hfour =>
        rw [if_pos hfour]
        refine .inr (.inl ?_)
        obtain heq | hfew := hlow
        · obtain hzero | ⟨k, hk⟩ := h.pow
          · omega
          · have := two_pow_le (k := k) (m := 1) (by omega)
            omega
        · omega
      next hfour =>
        rw [if_neg hfour]
        obtain ⟨k, hk⟩ := hpow.resolve_left (by omega)
        obtain h8 | hlt := le_or_gt 8 (shrink s.num s.max s.max)
        · exact .inl h8
        · have := two_pow_le (k := k) (m := 2) (by omega)
          exact .inr (.inl (by omega))
  next heq =>
    have hsweep := table_sweep h.table (hmeets (not_not.mp heq)) fun _ _ => rfl
    refine ⟨_, rfl, h.pow, hsweep, hnum, fun hpos => ?_, h.small, .inl ⟨rfl, fun n _ => hmarks n⟩⟩
    obtain ⟨n, hn, hnull⟩ := h.empty hpos
    refine ⟨n, hn, ?_⟩
    rw [sweep]
    dsimp only
    rw [if_neg (by rw [hnull]; decide), hnull]

end Right

/-! ### Loops -/

/-- A loop of `AREFSET_FOREACH` that is running; what the set was when it began, the items it has
visited, and those deleted before their turn. -/
structure Loop where
  nn : Nat
  max : Nat
  begun : Finset Ptr
  visited : List Ptr
  early : Finset Ptr

def Loop.deleted (l : Loop) (S : Finset Ptr) (item : Ptr) : Loop :=
  if item ∈ S ∧ item ∉ l.visited then { l with early := insert item l.early } else l

/-- What holds of a loop that began with the buckets `start`. -/
structure LoopRight (s : ARefSet) (S : Finset Ptr) (l : Loop) (start : Nat → Ptr) : Prop where
  max : l.max = s.max
  le : l.nn ≤ l.max
  kept : ∀ n < s.max, s.buckets n = start n ∨ s.buckets n = DELETED
  begun : ∀ x, x ∈ l.begun ↔ Item x ∧ ∃ n < s.max, start n = x
  unique : ∀ n < s.max, ∀ m < s.max, Item (start n) → start n = start m → n = m
  nodup : l.visited.Nodup
  visited : ∀ x ∈ l.visited, Item x ∧ ∃ n < l.nn, start n = x
  turn : ∀ n < l.nn, Item (start n) → start n ∈ l.visited ∨ start n ∈ l.early
  early : ∀ x ∈ l.early, x ∉ l.visited ∧ x ∉ S
  mark : ∀ n < s.max, l.nn ≤ n → Item (start n) → s.buckets n = DELETED → start n ∈ l.early

section Loop
variable {s s' : ARefSet} {l : Loop} {start : Nat → Ptr}

theorem loopRight_enter (h : Right s depth S) : LoopRight s S ⟨0, s.max, S, [], ∅⟩ s.buckets where
  max := rfl
  le := zero_le _
  kept _ _ := .inl rfl
  begun := h.table.mem
  unique n hn m hm hvalid heq := h.table.unique n hn m hm hvalid heq
  nodup := nodup_nil
  visited _ hx := absurd hx not_mem_nil
  turn n hn := absurd hn (not_lt_zero n)
  early x hx := absurd hx (Finset.notMem_empty x)
  mark _ _ _ hvalid hmark := absurd hmark hvalid.2

section
variable (h : LoopRight s S l start)
include h

theorem LoopRight.iteration (i : Nat) : LoopRight { s with iteration := i } S l start :=
  ⟨h.max, h.le, h.kept, h.begun, h.unique, h.nodup, h.visited, h.turn, h.early, h.mark⟩

theorem LoopRight.del (htable : Table s.max s.buckets S) (hitem : Item item) (hmax : s'.max = s.max)
    (hbuckets : ∀ n < s.max, s'.buckets n = if s.buckets n = item then DELETED else s.buckets n) :
    LoopRight s' (S.erase item) (l.deleted S item) start := by
  have heq : l.deleted S item = { l with early := (l.deleted S item).early } := by
    rw [Loop.deleted]
    split <;> rfl
  have hearly : ∀ x, x ∈ (l.deleted S item).early ↔ (item ∈ S ∧ item ∉ l.visited) ∧ x = item ∨ x ∈ l.early := by
    intro x
    rw [Loop.deleted]
    split
    next hdel => simp [hdel]
    next hdel => simp [hdel]
  rw [heq]
  refine ⟨h.max.trans hmax.symm, h.le, ?_, hmax ▸ h.begun, hmax ▸ h.unique, h.nodup, h.visited,
    fun n hn hvalid => (h.turn n hn hvalid).imp_right fun hx => (hearly _).mpr (.inr hx), ?_, ?_⟩
  · intro n hn
    rw [hmax] at hn
    rw [hbuckets n hn]
    split
    · exact .inr rfl
    · exact h.kept n hn
  · intro x hx
    rw [Finset.mem_erase, not_and]
    obtain ⟨hdel, rfl⟩ | hx := (hearly x).mp hx
    · exact ⟨hdel.2, fun hne => absurd rfl hne⟩
    · exact ⟨(h.early x hx).1, fun _ => (h.early x hx).2⟩
  · intro n hn (hle : l.nn ≤ n) hvalid hmark
    rw [hmax] at hn
    rw [hbuckets n hn] at hmark
    split at hmark
    next hbucket =>
      -- the item that is deleted has its turn ahead, so it is not among those visited
      have hstart : start n = item := by
        obtain heq | hold := h.kept n hn
        · exact heq.symm.trans hbucket
        · exact absurd (hbucket.symm.trans hold) hitem.2
      have hmem : item ∈ S := (htable.mem item).mpr ⟨hitem, n, hn, hbucket⟩
      have hnot : item ∉ l.visited := by
        intro hvis
        obtain ⟨-, m, hm, hstart'⟩ := h.visited item hvis
        have := h.unique n hn m (by have := h.le; omega) hvalid (hstart.trans hstart'.symm)
        omega
      exact (hearly _).mpr (.inl ⟨⟨hmem, hnot⟩, hstart⟩)
    next => exact (hearly _).mpr (.inr (h.mark n hn hle hvalid hmark))

theorem LoopRight.skip (hlt : l.nn < l.max) (hbucket : ¬ Item (s.buckets l.nn)) :
    LoopRight s S { l with nn := l.nn + 1 } start := by
  have hmax := h.max
  refine ⟨hmax, hlt, h.kept, h.begun, h.unique, h.nodup, fun x hx => ?_, fun n hn hvalid => ?_, h.early,
    fun n hn hle => h.mark n hn (le_of_succ_le hle)⟩
  · obtain ⟨hvalid, n, hn, hstart⟩ := h.visited x hx
    exact ⟨hvalid, n, lt_succ_of_lt hn, hstart⟩
  · obtain hn | rfl := Nat.lt_succ_iff_lt_or_eq.mp hn
    · exact h.turn n hn hvalid
    · obtain heq | hmark := h.kept l.nn (by omega)
      · exact absurd (heq ▸ hvalid) hbucket
      · exact .inr (h.mark l.nn (by omega) le_rfl hvalid hmark)

theorem LoopRight.visit (htable : Table s.max s.buckets S) (hlt : l.nn < l.max) (hbucket : Item (s.buckets l.nn)) :
    (s.buckets l.nn ∈ S ∧ s.buckets l.nn ∈ l.begun ∧ s.buckets l.nn ∉ l.visited) ∧
      LoopRight s S { l with nn := l.nn + 1, visited := l.visited ++ [s.buckets l.nn] } start := by
  have hmax := h.max
  have hstart : s.buckets l.nn = start l.nn := (h.kept l.nn (by omega)).resolve_right hbucket.2
  have hmem : s.buckets l.nn ∈ S := (htable.mem _).mpr ⟨hbucket, l.nn, by omega, rfl⟩
  have hnot : s.buckets l.nn ∉ l.visited := by
    intro hvis
    obtain ⟨-, n, hn, heq⟩ := h.visited _ hvis
    have := h.unique l.nn (by omega) n (by omega) (hstart ▸ hbucket) (hstart.symm.trans heq.symm)
    omega
  refine ⟨⟨hmem, (h.begun _).mpr ⟨hbucket, l.nn, by omega, hstart.symm⟩, hnot⟩, hmax, hlt, h.kept, h.begun, h.unique,
    ?_, fun x hx => ?_, fun n hn hvalid => ?_, fun x hx => ?_, fun n hn hle => h.mark n hn (le_of_succ_le hle)⟩
  · refine nodup_append.mpr ⟨h.nodup, nodup_singleton _, fun x hx y hy => ?_⟩
    rw [mem_singleton.mp hy]
    exact fun heq => hnot (heq ▸ hx)
  · obtain hx | hx := mem_append.mp hx
    · obtain ⟨hvalid, n, hn, heq⟩ := h.visited x hx
      exact ⟨hvalid, n, lt_succ_of_lt hn, heq⟩
    · rw [mem_singleton.mp hx]
      exact ⟨hbucket, l.nn, lt_succ_self _, hstart.symm⟩
  · obtain hn | rfl := Nat.lt_succ_iff_lt_or_eq.mp hn
    · exact (h.turn n hn hvalid).imp_left (mem_append_left _)
    · exact .inl (mem_append_right _ (by simp [hstart]))
  · obtain ⟨hvis, hS⟩ := h.early x hx
    refine ⟨fun hx' => ?_, hS⟩
    obtain hx' | hx' := mem_append.mp hx'
    · exact hvis hx'
    · rw [mem_singleton.mp hx'] at hS
      exact hS hmem

/-- A loop at its end has visited the items that were not deleted before their turn, each once. -/
theorem LoopRight.leave (hend : ¬ l.nn < l.max) : l.visited.Nodup ∧ l.visited.toFinset = l.begun \ l.early := by
  have hmax := h.max
  refine ⟨h.nodup, ?_⟩
  ext x
  rw [List.mem_toFinset, Finset.mem_sdiff, h.begun]
  constructor
  · intro hx
    obtain ⟨hvalid, n, hn, heq⟩ := h.visited x hx
    have hle := h.le
    exact ⟨⟨hvalid, n, by omega, heq⟩, fun hearly => (h.early x hearly).1 hx⟩
  · rintro ⟨⟨hvalid, n, hn, rfl⟩, hnot⟩
    exact (h.turn n (by omega) hvalid).resolve_right hnot

end

end Loop

/-! ### Runs -/

inductive Call where
  | add (item : Ptr)
  | del (item : Ptr)
  | has (item : Ptr)
  | count
  | enter
  | next
  | leave

inductive Answer where
  | done
  | bool (b : Bool)
  | count (n : Nat)
  | item (x : Option Ptr)

/-- A set in a run, with what was added and not deleted since and the loops that are running, the
innermost first. -/
structure Traced where
  set : ARefSet
  content : Finset Ptr
  loops : List Loop

/-- A call, or the beginning, a round or the end of a loop. The number of rounds is an `int`. -/
def step (t : Traced) : Call → Option (Answer × Traced)
  | .add item => (t.set.add item).map fun s => (.done, { t with set := s, content := insert item t.content })
  | .del item => (t.set.del item).map fun s =>
      (.done, ⟨s, t.content.erase item, t.loops.map fun l => l.deleted t.content item⟩)
  | .has item => (t.set.has item).map fun b => (.bool b, t)
  | .count => some (.count t.set.num, t)
  | .enter =>
    some (.done, { t with
      set := { t.set with iteration := t.set.iteration + 2 }
      loops := ⟨0, if t.set.max < 2147483648 then t.set.max else 0, t.content, [], ∅⟩ :: t.loops })
  | .next =>
    match t.loops with
    | [] => none
    | l :: loops =>
      if l.nn < l.max then
        if t.set.buckets l.nn = NULL ∨ t.set.buckets l.nn = DELETED then
          some (.item none, { t with loops := { l with nn := l.nn + 1 } :: loops })
        else
          some (.item (some (t.set.buckets l.nn)), { t with
            loops := { l with nn := l.nn + 1, visited := l.visited ++ [t.set.buckets l.nn] } :: loops })
      else none
  | .leave =>
    match t.loops with
    | [] => none
    | l :: loops =>
      if l.nn < l.max then none else t.set.endForeach.map fun s => (.done, { t with set := s, loops := loops })

/-- What a call on a set answers, what a round visits and what a loop has visited at its end. -/
def SpecAnswer (t : Traced) : Call → Answer → Prop
  | .has item, .bool b => b = decide (item ∈ t.content)
  | .count, .count n => n = t.content.card
  | .next, .item o => ∀ x ∈ o, x ∈ t.content ∧ ∀ l ∈ t.loops.head?, x ∈ l.begun ∧ x ∉ l.visited
  | .leave, .done => ∀ l ∈ t.loops.head?, l.visited.Nodup ∧ l.visited.toFinset = l.begun \ l.early
  | .add _, .done => True
  | .del _, .done => True
  | .enter, .done => True
  | _, _ => False

/-- Items are added outside loops. The search for an item does not leave a table of fewer than
eight buckets, and a bucket is emptied only where no search goes by it or the table is rehashed. -/
def Meets (t : Traced) : Call → Prop
  | .add item => Item item ∧ t.loops = [] ∧ AddMeets t.set item
  | .del item => Item item ∧ DelMeets t.set item
  | .has item => Item item ∧ (0 < t.set.max → t.set.max < 8 → Ahead t.set.buckets t.set.max item)
  | .next => ∃ l ∈ t.loops.head?, l.nn < l.max
  | .leave => ∃ l ∈ t.loops.head?, ¬ l.nn < l.max ∧
      (t.set.iteration = 3 → t.set.deferredSize = t.set.max → Unblocked t.set.max t.set.buckets)
  | _ => True

/-- What holds between the calls of a run. -/
structure Inv (t : Traced) : Prop where
  set : Right t.set t.loops.length t.content
  loops : ∀ l ∈ t.loops, ∃ start, LoopRight t.set t.content l start

theorem Inv.leave {t : Traced} {l : Loop} {loops : List Loop} (h : Inv t) (hloops : t.loops = l :: loops)
    (hmeets : t.set.iteration = 3 → t.set.deferredSize = t.set.max → Unblocked t.set.max t.set.buckets) :
    ∃ s, t.set.endForeach = some s ∧ Inv { t with set := s, loops := loops } := by
  obtain ⟨hset, hall⟩ := h
  rw [hloops] at hset hall
  rw [length_cons] at hset
  rw [endForeach]
  have hiter := hset.iteration
  split
  next hone =>
    obtain rfl : loops = [] := eq_nil_of_length_eq_zero (by omega)
    obtain ⟨s, hs, hright⟩ := hset.removeDeferred (hmeets (by omega))
    rw [hone]
    exact ⟨s, hs, hright, fun l' hl' => absurd hl' not_mem_nil⟩
  next hone =>
    refine ⟨_, rfl, ⟨hset.pow, hset.table, hset.num, hset.empty, hset.small, ?_⟩, fun l' hl' => ?_⟩
    · dsimp only
      exact hiter.imp (fun hi => ⟨by omega, hi.2⟩) fun hi => ⟨by omega, by omega⟩
    · obtain ⟨start, hl'⟩ := hall l' (mem_cons_of_mem _ hl')
      exact ⟨start, hl'.iteration _⟩

theorem Inv.step {t : Traced} {c : Call} (h : Inv t) (hmeets : Meets t c) :
    ∃ answer t', step t c = some (answer, t') ∧ SpecAnswer t c answer ∧ Inv t' := by
  obtain ⟨hset, hall⟩ := h
  cases c with
  | add item =>
    obtain ⟨hitem, hloops, hadd⟩ := hmeets
    rw [hloops] at hset
    obtain ⟨s, hs, hright⟩ := hset.add hitem hadd
    refine ⟨.done, _, by rw [RefSet.step, hs]; rfl, trivial, by rw [hloops]; exact hright, fun l hl => ?_⟩
    rw [show _ = t.loops from rfl, hloops] at hl
    exact absurd hl not_mem_nil
  | del item =>
    obtain ⟨hitem, hdel⟩ := hmeets
    obtain ⟨s, hs, hright, hbuckets⟩ := hset.del hitem hdel
    refine ⟨.done, _, by rw [RefSet.step, hs]; rfl, trivial, by simpa using hright, fun l' hl' => ?_⟩
    obtain ⟨l, hl, rfl⟩ := mem_map.mp hl'
    obtain ⟨start, hstart⟩ := hall l hl
    obtain ⟨hmax, hbuckets⟩ := hbuckets (length_pos_of_mem hl)
    exact ⟨start, hstart.del hset.table hitem hmax hbuckets⟩
  | has item => exact ⟨.bool _, t, by rw [RefSet.step, hset.has hmeets.1 hmeets.2]; rfl, rfl, hset, hall⟩
  | count => exact ⟨_, _, rfl, hset.num, hset, hall⟩
  | enter =>
    refine ⟨_, _, rfl, trivial, ⟨hset.pow, hset.table, hset.num, hset.empty, hset.small, ?_⟩, fun l hl => ?_⟩
    · have := hset.iteration
      simp only [length_cons]
      exact this.imp (fun hi => ⟨by omega, hi.2⟩) (fun hi => ⟨by omega, by omega⟩)
    · obtain rfl | hl := mem_cons.mp hl
      · rw [if_pos hset.small]
        exact ⟨_, (loopRight_enter hset).iteration _⟩
      · obtain ⟨start, hstart⟩ := hall l hl
        exact ⟨start, hstart.iteration _⟩
  | next =>
    obtain ⟨l, hl, hlt⟩ := hmeets
    obtain ⟨loops, hloops⟩ := List.head?_eq_some_iff.mp hl
    obtain ⟨start, hstart⟩ := hall l (by rw [hloops]; exact mem_cons_self)
    have hrest : ∀ l' ∈ loops, ∃ start, LoopRight t.set t.content l' start := fun l' hl' =>
      hall l' (by rw [hloops]; exact mem_cons_of_mem _ hl')
    rw [hloops, length_cons] at hset
    simp only [RefSet.step, hloops, if_pos hlt]
    by_cases hbucket : t.set.buckets l.nn = NULL ∨ t.set.buckets l.nn = DELETED
    · rw [if_pos hbucket]
      refine ⟨_, _, rfl, nofun, hset, ?_⟩
      exact forall_mem_cons.mpr ⟨⟨start, hstart.skip hlt fun hv => hbucket.elim hv.1 hv.2⟩, hrest⟩
    obtain ⟨⟨hmem, hbegun, hnot⟩, hvisit⟩ := hstart.visit hset.table hlt (not_or.mp hbucket)
    rw [if_neg hbucket]
    refine ⟨_, _, rfl, ?_, hset, forall_mem_cons.mpr ⟨⟨start, hvisit⟩, hrest⟩⟩
    intro x hx
    obtain rfl := Option.some.inj hx
    refine ⟨hmem, fun l' hl' => ?_⟩
    rw [hloops] at hl'
    obtain rfl := Option.some.inj hl'
    exact ⟨hbegun, hnot⟩
  | leave =>
    obtain ⟨l, hl, hend, hsweep⟩ := hmeets
    obtain ⟨loops, hloops⟩ := List.head?_eq_some_iff.mp hl
    obtain ⟨start, hstart⟩ := hall l (by rw [hloops]; exact mem_cons_self)
    obtain ⟨s, hs, hinv⟩ := Inv.leave ⟨hset, hall⟩ hloops hsweep
    refine ⟨.done, { t with set := s, loops := loops }, ?_, fun l' hl' => ?_, hinv⟩
    · simp [RefSet.step, hloops, if_neg hend, hs]
    · obtain rfl := Option.some.inj (hl.symm.trans hl')
      exact hstart.leave hend

def Starts (t : Traced) : Prop := t = ⟨init, ∅, []⟩

def Calls (t : Traced) (c : Call) (t' : Traced) : Prop := ∃ answer, step t c = some (answer, t')

/-- In a run whose calls all meet the condition, a further call that meets it returns and answers
as a set does, and no search leaves the table. -/
theorem refSet_right {t : Traced} (h : Reach Starts (fun t c t' => Meets t c ∧ Calls t c t') t) :
    ∀ c, Meets t c → ∃ answer t', step t c = some (answer, t') ∧ SpecAnswer t c answer := by
  have hinv : Inv t := by
    apply h.invariant
    · rintro t rfl
      exact ⟨right_init, fun l hl => absurd hl not_mem_nil⟩
    · intro t c t' hinv ⟨hmeets, answer, hstep⟩
      obtain ⟨answer', t'', hstep', -, hinv'⟩ := hinv.step hmeets
      obtain ⟨-, rfl⟩ := Prod.mk.inj (Option.some.inj (hstep.symm.trans hstep'))
      exact hinv'
  intro c hmeets
  obtain ⟨answer, t', hstep, hanswer, -⟩ := hinv.step hmeets
  exact ⟨answer, t', hstep, hanswer⟩

/-- An item is found in a set of one. -/
theorem refSet_oneAdded : ∃ t answer t', step ⟨init, ∅, []⟩ (.add 4) = some (.done, t) ∧
    step t (.has 4) = some (answer, t') ∧ SpecAnswer t (.has 4) answer := by
  have hadd : Meets ⟨init, ∅, []⟩ (.add 4) :=
    ⟨by decide, rfl, fun _ hcrowded => absurd hcrowded (by decide : ¬ 20 * 1 > 17 * 4)⟩
  obtain ⟨answer, t', hstep⟩ := refSet_right (.step (.start rfl) ⟨hadd, .done, rfl⟩) (.has 4)
    ⟨by decide, fun _ _ => ⟨1, by decide, by decide, fun _ => by decide, .inl (by decide)⟩⟩
  exact ⟨_, answer, t', rfl, hstep⟩

/-- Two items whose searches begin at one bucket: when the first is deleted the other is not found.
And the search for an item leaves a table of four buckets whose last is taken. -/
theorem set_wrong : (∃ t, Reach Starts Calls t ∧ 32 ∈ t.content ∧ t.set.has 32 = some false) ∧
    ∃ t, Reach Starts Calls t ∧ t.set.max = 4 ∧ t.set.has 28 = none :=
  ⟨⟨_, .step (a := .del 16) (.step (a := .add 32) (.step (a := .add 16) (.start rfl) ⟨.done, rfl⟩) ⟨.done, rfl⟩)
      ⟨.done, rfl⟩, by decide, by decide⟩,
    _, .step (a := .add 12) (.start rfl) ⟨.done, rfl⟩, by decide, by decide⟩

end GemDroid.Utils.RefSet
