import GemDroid.Lib.Reach
import Mathlib.Algebra.Ring.Nat
import Mathlib.Logic.Function.Basic

/-! The cache of L2 tables (`block/qcow2-cluster.c`).

Sixteen slots hold tables of the file. `l2_load` reads into the slot that it is going to use before
it knows that the read succeeds, and the slot keeps its old offset if it does not; a compressed
cluster is entered into the cached table before it is written, and the cache is not reset if the
write fails. -/
namespace GemDroid.Qcow2.L2Cache
open Lib Function List Option

abbrev Table := Nat → UInt64

/-- The cache, and the tables of the file by their offsets. A table is a cluster long and begins at a
cluster, so that no write to one of them changes another; L1 entries of a damaged image that make
tables overlap are not covered. -/
structure State where
  offsets : Nat → Nat
  counts : Nat → Nat
  tables : Nat → Table
  file : Nat → Table

variable {s : State}

/-- What a transfer that fails leaves at its target; `none` if it succeeds. -/
abbrev Failed := Option Table

variable {read : Failed}

def newEntry (counts : Nat → Nat) : Nat :=
  ((range 16).foldl (fun least i => if counts i < least.1 then (counts i, i) else least) (4294967295, 0)).2

/-- The hit count of a slot; all are halved when it gets too large. -/
def hit (counts : Nat → Nat) (i : Nat) : Nat → Nat :=
  if counts i + 1 = 4294967295 then fun j => update counts i (counts i + 1) j / 2
  else update counts i (counts i + 1)

namespace State

def reset (s : State) : State := { s with offsets := fun _ => 0, counts := fun _ => 0, tables := fun _ _ => 0 }

def give (s : State) (i offset : Nat) : State :=
  { s with offsets := update s.offsets i offset, counts := update s.counts i 1 }

def setTable (s : State) (i : Nat) (table : Table) : State := { s with tables := update s.tables i table }

def setFile (s : State) (offset : Nat) (table : Table) : State := { s with file := update s.file offset table }

def seek (s : State) (offset : Nat) : Option Nat := (range 16).find? fun i => s.offsets i = offset

def l2Load (s : State) (offset : Nat) (read : Failed) : Option Nat × State :=
  match s.seek offset with
  | some i => (some i, { s with counts := hit s.counts i })
  | none =>
    match read with
    | some left => (none, s.setTable (newEntry s.counts) left)
    | none => (some (newEntry s.counts), (s.setTable (newEntry s.counts) (s.file offset)).give (newEntry s.counts) offset)

/-- What happens to the transfers of `l2_allocate`. -/
structure Allocation where
  offset : Option Nat
  read : Failed
  write : Failed
  l1 : Bool

def l2AllocateAt (s : State) (old offset : Nat) (a : Allocation) : Option Nat × State :=
  match a.read with
  | some left => if old = 0 then write (fun _ => 0) else (none, (s.setTable (newEntry s.counts) left).reset)
  | none => write (if old = 0 then fun _ => 0 else s.file old)
where
  write (table : Table) : Option Nat × State :=
    match a.write with
    | some left => (none, ((s.setTable (newEntry s.counts) table).setFile offset left).reset)
    | none =>
      if a.l1 then
        (some (newEntry s.counts),
          ((s.setTable (newEntry s.counts) table).setFile offset table).give (newEntry s.counts) offset)
      else (none, ((s.setTable (newEntry s.counts) table).setFile offset table).reset)

def getClusterTable (s : State) (l1 : Nat) (copied : Bool) (read : Failed) (a : Allocation) :
    Option (Nat × Nat) × State :=
  if copied then ((s.l2Load l1 read).1.map fun i => (i, l1), (s.l2Load l1 read).2)
  else
    match a.offset with
    | none => (none, s)
    | some offset => ((s.l2AllocateAt l1 offset a).1.map fun i => (i, offset), (s.l2AllocateAt l1 offset a).2)

def writeEntries (s : State) (i offset : Nat) (change : Table → Table) (first last : Nat) : State :=
  (s.setTable i (change (s.tables i))).setFile offset fun k =>
    if first ≤ k ∧ k < last then change (s.tables i) k else s.file offset k

end State

/-- The steps of the operations on an image. -/
inductive Op where
  /-- `qcow2_get_cluster_offset` -/
  | load (offset : Nat) (read : Failed)
  /-- `qcow2_alloc_cluster_offset` -/
  | table (l1 : Nat) (copied : Bool) (read : Failed) (a : State.Allocation)
  /-- `qcow2_alloc_compressed_cluster_offset` -/
  | compressed (l1 : Nat) (copied : Bool) (read : Failed) (a : State.Allocation) (index : Nat) (entry : UInt64)
    (write : Failed)
  /-- `qcow2_alloc_cluster_link_l2` -/
  | link (l1 : Nat) (copied : Bool) (read : Failed) (a : State.Allocation) (index num : Nat) (entries : Table)
    (write : Failed)
  /-- `qcow2_l2_cache_reset`, by the operations on snapshots -/
  | reset
  /-- Any other writes to the file -/
  | others (file : Nat → Table)

def enter (index num : Nat) (entries : Table) (table : Table) : Table :=
  fun k => if index ≤ k ∧ k < index + num then entries k else table k

/-- A step; a write of entries that fails leaves something at the table's offset. Entries are
written alone for a compressed cluster, and in whole sectors of 64 otherwise. -/
def step (s : State) : Op → State
  | .load offset read => (s.l2Load offset read).2
  | .table l1 copied read a => (s.getClusterTable l1 copied read a).2
  | .compressed l1 copied read a index entry write =>
    match s.getClusterTable l1 copied read a with
    | (none, s) => s
    | (some (i, offset), s) =>
      if 9223372036854775808 ≤ (s.tables i index).toNat then s
      else
        match write with
        | none => s.writeEntries i offset (enter index 1 fun _ => entry) index (index + 1)
        | some left => (s.setTable i (enter index 1 (fun _ => entry) (s.tables i))).setFile offset left
  | .link l1 copied read a index num entries write =>
    match s.getClusterTable l1 copied read a with
    | (none, s) => s
    | (some (i, offset), s) =>
      match write with
      | none => s.writeEntries i offset (enter index num entries) (index / 64 * 64) ((index + num + 63) / 64 * 64)
      | some left => ((s.setTable i (enter index num entries (s.tables i))).setFile offset left).reset
  | .reset => s.reset
  | .others file => { s with file := file }

/-! ### The invariant -/

/-- A slot that is used holds the table at its offset, and no other slot has the offset. -/
structure Right (s : State) : Prop where
  table : ∀ i < 16, s.offsets i ≠ 0 → s.tables i = s.file (s.offsets i)
  unique : ∀ i < 16, ∀ j < 16, s.offsets i ≠ 0 → s.offsets i = s.offsets j → i = j

section Right

theorem newEntry_lt (counts : Nat → Nat) : newEntry counts < 16 := by
  have hfold : ∀ (l : List Nat) (least : Nat × Nat), least.2 < 16 → (∀ i ∈ l, i < 16) →
      (l.foldl (fun least i => if counts i < least.1 then (counts i, i) else least) least).2 < 16 := by
    intro l
    induction l with
    | nil => exact fun least h _ => h
    | cons i l ih =>
      intro least h hl
      apply ih
      · dsimp only
        split
        · exact hl i mem_cons_self
        · exact h
      · exact (forall_mem_cons.mp hl).2
  exact hfold _ _ (by decide) fun i hi => mem_range.mp hi

theorem right_reset (s : State) : Right s.reset :=
  ⟨fun _ _ h => absurd rfl h, fun _ _ _ _ h => absurd rfl h⟩

variable {i offset : Nat}

theorem Right.give (h : Right s) (hother : ∀ j < 16, j ≠ i → s.offsets j ≠ offset) (table : Table) :
    Right (((s.setTable i table).setFile offset table).give i offset) := by
  have hoffset : ∀ j, j ≠ i → (((s.setTable i table).setFile offset table).give i offset).offsets j = s.offsets j :=
    fun j hj => update_of_ne hj _ _
  have hself : (((s.setTable i table).setFile offset table).give i offset).offsets i = offset :=
    update_self ..
  constructor
  · intro j hj hne
    by_cases hji : j = i
    · subst hji
      rw [hself]
      show update s.tables j table j = update s.file offset table offset
      rw [update_self, update_self]
    rw [hoffset j hji] at hne ⊢
    have hfile : (((s.setTable i table).setFile offset table).give i offset).file (s.offsets j) = s.file (s.offsets j) :=
      update_of_ne (hother j hj hji) _ _
    rw [hfile]
    exact (update_of_ne hji _ _).trans (h.table j hj hne)
  · intro j hj k hk hne heq
    by_cases hji : j = i <;> by_cases hki : k = i
    · exact hji.trans hki.symm
    · rw [hji, hself, hoffset k hki] at heq
      exact absurd heq.symm (hother k hk hki)
    · rw [hki, hself, hoffset j hji] at heq
      exact absurd heq (hother j hj hji)
    · rw [hoffset j hji] at hne
      rw [hoffset j hji, hoffset k hki] at heq
      exact h.unique j hj k hk hne heq

theorem Right.write (h : Right s) (hi : i < 16) {change : Table → Table} {first last : Nat}
    (houtside : ∀ table k, ¬ (first ≤ k ∧ k < last) → change table k = table k) :
    Right (s.writeEntries i (s.offsets i) change first last) := by
  refine ⟨fun j hj hne => ?_, h.unique⟩
  by_cases hji : j = i
  · subst hji
    show update s.tables j _ j = update s.file (s.offsets j) _ (s.offsets j)
    rw [update_self, update_self]
    funext k
    split
    next => rfl
    next hout => rw [houtside _ k hout, h.table j hj hne]
  · have hoff : s.offsets j ≠ s.offsets i := fun heq => hji (h.unique j hj i hi hne heq)
    exact (update_of_ne hji _ _).trans ((h.table j hj hne).trans (update_of_ne hoff _ _).symm)

theorem seek_some (h : s.seek offset = some i) : i < 16 ∧ s.offsets i = offset := by
  refine ⟨mem_range.mp (mem_of_find?_eq_some h), ?_⟩
  simpa using find?_some h

theorem seek_none (h : s.seek offset = none) : ∀ j < 16, s.offsets j ≠ offset := by
  intro j hj heq
  have := find?_eq_none.mp h j (mem_range.mpr hj)
  simp [heq] at this

def Found (r : Option Nat × State) (offset : Nat) : Prop :=
  Right r.2 ∧ ∀ i, r.1 = some i → i < 16 ∧ r.2.offsets i = offset

theorem found_none (h : Right s) : Found (none, s) offset := ⟨h, fun _ hi => by cases hi⟩

theorem found_some (h : Right s) (hi : i < 16) (ho : s.offsets i = offset) : Found (some i, s) offset := by
  refine ⟨h, fun j hj => ?_⟩
  obtain rfl := some.inj hj
  exact ⟨hi, ho⟩

def LoadMeets (s : State) (offset : Nat) (read : Failed) : Prop :=
  s.seek offset = none → read ≠ none → s.offsets (newEntry s.counts) = 0

theorem Right.l2Load (h : Right s) (hmeets : LoadMeets s offset read) : Found (s.l2Load offset read) offset := by
  rw [LoadMeets] at hmeets
  unfold State.l2Load
  have hlt := newEntry_lt s.counts
  generalize newEntry s.counts = n at hmeets hlt ⊢
  cases hseek : s.seek offset with
  | some i => exact found_some ⟨h.table, h.unique⟩ (seek_some hseek).1 (seek_some hseek).2
  | none =>
    cases read with
    | some left =>
      have hfree := hmeets hseek (some_ne_none _)
      refine found_none ⟨fun i hi hne => ?_, h.unique⟩
      have hne' : i ≠ n := fun heq => hne (heq ▸ hfree)
      exact (update_of_ne hne' _ _).trans (h.table i hi hne)
    | none =>
      have hgive := h.give (i := n) (fun j hj _ => seek_none hseek j hj) (s.file offset)
      have hfile : (s.setTable n (s.file offset)).setFile offset (s.file offset) = s.setTable n (s.file offset) := by
        exact congrArg (State.mk _ _ _) (update_eq_self _ _)
      rw [hfile] at hgive
      exact found_some hgive hlt (update_self ..)

def TableMeets (s : State) (l1 : Nat) (copied : Bool) (read : Failed) (a : State.Allocation) : Prop :=
  if copied then LoadMeets s l1 read else ∀ offset ∈ a.offset, ∀ j < 16, s.offsets j ≠ offset

variable {a : State.Allocation} {l1 : Nat} {copied : Bool}

theorem Right.l2AllocateAt (h : Right s) {old : Nat} (hnew : ∀ j < 16, s.offsets j ≠ offset) :
    Found (s.l2AllocateAt old offset a) offset := by
  have hwrite : ∀ table, Found (State.l2AllocateAt.write s offset a table) offset := by
    intro table
    unfold State.l2AllocateAt.write
    have hlt := newEntry_lt s.counts
    generalize newEntry s.counts = n at hlt ⊢
    cases a.write with
    | some left => exact found_none (right_reset _)
    | none =>
      cases a.l1 with
      | true => exact found_some (h.give (fun j hj _ => hnew j hj) table) hlt (update_self ..)
      | false => exact found_none (right_reset _)
  unfold State.l2AllocateAt
  cases a.read with
  | some left =>
    by_cases hold : old = 0
    · simp only [if_pos hold]
      exact hwrite _
    · simp only [if_neg hold]
      exact found_none (right_reset _)
  | none => exact hwrite _

theorem Right.getClusterTable (h : Right s) (hmeets : TableMeets s l1 copied read a) :
    ∃ s', Right s' ∧ (s.getClusterTable l1 copied read a = (none, s') ∨
      ∃ i < 16, s.getClusterTable l1 copied read a = (some (i, s'.offsets i), s')) := by
  have hmap : ∀ {r : Option Nat × State} {o : Nat}, Found r o →
      ∃ s', Right s' ∧ ((r.1.map fun i => (i, o), r.2) = (none, s') ∨
        ∃ i < 16, (r.1.map fun i => (i, o), r.2) = (some (i, s'.offsets i), s')) := by
    rintro ⟨found, s'⟩ o ⟨hright, hslot⟩
    refine ⟨s', hright, ?_⟩
    cases found with
    | none => exact .inl rfl
    | some i =>
      obtain ⟨hi, rfl⟩ := hslot i rfl
      exact .inr ⟨i, hi, rfl⟩
  unfold State.getClusterTable
  rw [TableMeets] at hmeets
  cases copied with
  | true => exact hmap (h.l2Load hmeets)
  | false =>
    cases ha : a.offset with
    | none => exact ⟨s, h, .inl rfl⟩
    | some offset => exact hmap (h.l2AllocateAt (hmeets offset ha))

end Right

/-! ### Runs -/

/-- A read into a slot that is used and the write of the entry of a compressed cluster do not fail,
a cluster allocated for a table is none of a cached one, and nothing else writes to cached tables. -/
def Meets (s : State) : Op → Prop
  | .load offset read => LoadMeets s offset read
  | .table l1 copied read a => TableMeets s l1 copied read a
  | .compressed l1 copied read a _ _ write => TableMeets s l1 copied read a ∧ write = none
  | .link l1 copied read a _ _ _ _ => TableMeets s l1 copied read a
  | .reset => True
  | .others file => ∀ i < 16, s.offsets i ≠ 0 → file (s.offsets i) = s.file (s.offsets i)

theorem Right.step (h : Right s) (op : Op) (hmeets : Meets s op) : Right (step s op) := by
  cases op with
  | load offset read => exact (h.l2Load hmeets).1
  | table l1 copied read a =>
    obtain ⟨s', hright, hnone | ⟨i, hi, hsome⟩⟩ := h.getClusterTable hmeets
    · rwa [L2Cache.step, hnone]
    · rwa [L2Cache.step, hsome]
  | compressed l1 copied read a index entry write =>
    obtain ⟨htable, rfl⟩ := hmeets
    obtain ⟨s', hright, hnone | ⟨i, hi, hsome⟩⟩ := h.getClusterTable htable
    · rwa [L2Cache.step, hnone]
    · rw [L2Cache.step, hsome]
      dsimp only
      split
      next => exact hright
      next => exact hright.write hi fun table k hout => if_neg hout
  | link l1 copied read a index num entries write =>
    obtain ⟨s', hright, hnone | ⟨i, hi, hsome⟩⟩ := h.getClusterTable hmeets
    · rwa [L2Cache.step, hnone]
    · rw [L2Cache.step, hsome]
      cases write with
      | none => exact hright.write hi fun table k hout => if_neg fun hin => hout (by omega)
      | some left => exact right_reset _
  | reset => exact right_reset s
  | others file => exact ⟨fun i hi hne => (h.table i hi hne).trans (hmeets i hi hne).symm, h.unique⟩

/-- An image is opened with an empty cache. -/
def Starts (s : State) : Prop := ∀ i, s.offsets i = 0

/-- After any operations that meet the condition, also failed ones, every slot in use holds the
table at its offset, and no two have one offset. -/
theorem cache_right {s : State} (h : Reach Starts (fun s op s' => Meets s op ∧ s' = step s op) s) : Right s := by
  apply h.invariant
  · exact fun s hs => ⟨fun i _ hne => absurd (hs i) hne, fun i _ _ _ hne => absurd (hs i) hne⟩
  · rintro s op _ hright ⟨hmeets, rfl⟩
    exact hright.step op hmeets

/-- An empty cache and a file of zeroes. -/
def opened : State := ⟨fun _ => 0, fun _ => 0, fun _ _ => 0, fun _ _ => 0⟩

/-- A table is loaded, and a cluster linked to it with a write that fails. -/
theorem failedLink_right :
    Right (step (step opened (.load 512 none)) (.link 512 true none ⟨none, none, none, true⟩ 3 1 (fun _ => 7) (some fun _ => 9))) := by
  have hload : Meets opened (.load 512 none) := fun _ hfail => absurd rfl hfail
  have hlink : Meets (step opened (.load 512 none))
      (.link 512 true none ⟨none, none, none, true⟩ 3 1 (fun _ => 7) (some fun _ => 9)) := fun _ hfail => absurd rfl hfail
  exact cache_right (.step (.step (.start fun _ => rfl) ⟨hload, rfl⟩) ⟨hlink, rfl⟩)

/-- The entry of a compressed cluster is in the cached table and not in the file, if its write
fails. -/
theorem cache_wrong : ∃ s, Reach Starts (fun s op s' => s' = step s op) s ∧ s.offsets 0 = 512 ∧
    s.tables 0 3 = 7 ∧ s.file 512 3 = 0 :=
  ⟨_, .step (a := .compressed 512 true none ⟨none, none, none, true⟩ 3 7 (some fun _ => 0))
    (.step (a := .load 512 none) (.start (s := opened) fun _ => rfl) rfl) rfl, rfl, rfl, rfl⟩

end GemDroid.Qcow2.L2Cache
