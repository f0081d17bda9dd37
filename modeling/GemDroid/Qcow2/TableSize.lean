import Mathlib.Tactic.Ring

/-! The size of a new refcount table (`block/qcow2-refcount.c`).

`alloc_refcount_block` looks for a table size and a number of refcount blocks at which the new
blocks describe themselves and the new table. Its loop takes the number of entries of the table for
their number of bytes, so that the blocks are enough only for a table of fewer clusters than two
blocks have entries. -/
namespace GemDroid.Qcow2.TableSize
open Option Nat

variable {m r fuel n t a b : Nat}

/-- The fields that the sizes depend on. -/
structure State where
  clusterBits : Nat
  refcountTableSize : Nat
  freeClusterIndex : Nat

open State

def sizeToClusters (bits size : Nat) : Nat := (size + (2 ^ bits - 1)) >>> bits

/-- The loop of `next_refcount_table_size`, in 32 bits and with `fuel` rounds. -/
def growClusters (minClusters : Nat) : Nat → Nat → Option Nat
  | 0, _ => none
  | fuel + 1, clusters =>
    if minClusters > clusters then growClusters minClusters fuel ((clusters * 3 + 1) % 4294967296 / 2)
    else some clusters

namespace State

def nextRefcountTableSize (s : State) (fuel minSize : Nat) : Option Nat :=
  (growClusters (((minSize % 4294967296) >>> (s.clusterBits - 3)) + 1) fuel
    (max 1 (s.refcountTableSize >>> (s.clusterBits - 3)))).map fun clusters =>
      (clusters <<< (s.clusterBits - 3)) % 4294967296

def blockEntries (s : State) : Nat := 2 ^ (s.clusterBits - 1)

/-- The refcount blocks in use, as `alloc_refcount_block` counts them. -/
def blocksUsed (s : State) : Nat := (s.freeClusterIndex + s.blockEntries - 1) / s.blockEntries

def blocksClusters (s : State) (tableSize : Nat) : Nat :=
  1 + (sizeToClusters s.clusterBits tableSize + s.blockEntries - 1) / s.blockEntries

def minSize (s : State) (tableSize : Nat) : Nat :=
  s.blocksUsed +
    (sizeToClusters s.clusterBits tableSize + s.blocksClusters tableSize + s.blockEntries - 1) / s.blockEntries

/-- The loop of `alloc_refcount_block`: the table size and the number of blocks. -/
def sizes (s : State) (fuel : Nat) : Nat → Nat → Option (Nat × Nat)
  | 0, _ => none
  | rounds + 1, last =>
    match s.nextRefcountTableSize fuel (s.minSize last) with
    | none => none
    | some tableSize => if last ≠ tableSize then s.sizes fuel rounds tableSize else some (tableSize, s.blocksClusters last)

/-- The loop of `alloc_refcount_block`: the sizes of the new table and of its blocks. -/
def newSizes (s : State) (fuel : Nat) : Option (Nat × Nat) :=
  (s.nextRefcountTableSize fuel (s.blocksUsed + 1)).bind (s.sizes fuel fuel)

end State

/-! ### The next table size -/

theorem growClusters_right (hm : m ≤ 2 ^ 28) (fuel : Nat) (hr : 0 < r) (hfuel : m - r < fuel) :
    ∃ c, growClusters m fuel r = some c ∧ m ≤ c ∧ r ≤ c ∧ (c = r ∨ 2 * c ≤ 3 * m) := by
  induction fuel generalizing r with
  | zero => omega
  | succ fuel ih =>
    rw [growClusters]
    split
    next hlt =>
      have hmod : (r * 3 + 1) % 4294967296 / 2 = (r * 3 + 1) / 2 := by
        rw [mod_eq_of_lt (by omega)]
      rw [hmod]
      obtain ⟨c, hc, hmc, hrc, hle⟩ := ih (r := (r * 3 + 1) / 2) (by omega) (by omega)
      exact ⟨c, hc, hmc, by omega, .inr (by omega)⟩
    next hge => exact ⟨r, rfl, by omega, le_rfl, .inl rfl⟩

theorem growClusters_mono {m' : Nat} (hm : m ≤ m') {c c' : Nat} (hm' : m' ≤ 2 ^ 28) (hr : 0 < r)
    (h : growClusters m fuel r = some c) (h' : growClusters m' fuel r = some c') (hfuel : m' - r < fuel) : c ≤ c' := by
  induction fuel generalizing r with
  | zero => cases h
  | succ fuel ih =>
    by_cases hlt : m > r
    · rw [growClusters, if_pos hlt] at h
      rw [growClusters, if_pos (by omega)] at h'
      rw [mod_eq_of_lt (by omega)] at h h'
      exact ih (by omega) h h' (by omega)
    obtain ⟨c'', hc'', -, hrc, -⟩ := growClusters_right hm' (fuel + 1) hr hfuel
    rw [growClusters, if_neg hlt] at h
    obtain rfl := some.inj h
    obtain rfl := some.inj (h'.symm.trans hc'')
    exact hrc

/-- One round of the loop of `next_refcount_table_size`. -/
def threeHalves (clusters : Nat) : Nat := (clusters * 3 + 1) / 2

theorem growClusters_iterate (hm : m ≤ 2 ^ 28) {c : Nat} (h : growClusters m fuel r = some c) :
    m ≤ c ∧ ∃ j, c = threeHalves^[j] r := by
  induction fuel generalizing r with
  | zero => cases h
  | succ fuel ih =>
    by_cases hlt : m > r
    · rw [growClusters, if_pos hlt, mod_eq_of_lt (by omega)] at h
      obtain ⟨hle, j, hj⟩ := ih (r := threeHalves r) h
      exact ⟨hle, j + 1, hj⟩
    · rw [growClusters, if_neg hlt] at h
      exact ⟨by have := some.inj h; omega, 0, (some.inj h).symm⟩

theorem le_iterate_threeHalves (j r : Nat) : r ≤ threeHalves^[j] r := by
  induction j generalizing r with
  | zero => exact le_rfl
  | succ j ih =>
    have hle : r ≤ threeHalves r := by
      rw [threeHalves]
      omega
    exact hle.trans (ih _)

/-- The loop ends with the first number of clusters that is enough. -/
theorem growClusters_le (hm : m ≤ 2 ^ 28) {c j : Nat} (h : growClusters m fuel r = some c) (hj : m ≤ threeHalves^[j] r) :
    c ≤ threeHalves^[j] r := by
  induction fuel generalizing r j with
  | zero => cases h
  | succ fuel ih =>
    by_cases hlt : m > r
    · rw [growClusters, if_pos hlt, mod_eq_of_lt (by omega)] at h
      cases j with
      | zero => exact absurd hj (not_le.mpr hlt)
      | succ j => exact (ih h hj : c ≤ threeHalves^[j] (threeHalves r))
    · rw [growClusters, if_neg hlt] at h
      rw [← some.inj h]
      exact le_iterate_threeHalves j r

structure State.Small (s : State) : Prop where
  bits : 9 ≤ s.clusterBits ∧ s.clusterBits ≤ 21
  size : s.refcountTableSize ≤ 2 ^ 31
  used : s.blocksUsed ≤ 2 ^ 30

section Small
variable {s : State}

def State.clusterEntries (s : State) : Nat := 2 ^ (s.clusterBits - 3)

theorem State.Small.entries (h : s.Small) : 64 ≤ s.clusterEntries ∧ s.clusterEntries ≤ 262144 ∧
    s.blockEntries = 4 * s.clusterEntries ∧ 2 ^ s.clusterBits = 8 * s.clusterEntries := by
  obtain ⟨hlow, hhigh⟩ := h.bits
  obtain ⟨e, he⟩ : ∃ e, s.clusterBits = e + 3 := ⟨s.clusterBits - 3, by omega⟩
  have hentries : s.clusterEntries = 2 ^ e := by rw [clusterEntries, he, Nat.add_sub_cancel]
  rw [hentries, blockEntries, he]
  refine ⟨Nat.pow_le_pow_right (n := 2) (i := 6) (by decide) (by omega),
    Nat.pow_le_pow_right (n := 2) (j := 18) (by decide) (by omega), ?_, ?_⟩
  · rw [show e + 3 - 1 = e + 2 by omega, pow_add, mul_comm]
    rfl
  · rw [pow_add, mul_comm]
    rfl

theorem State.Small.next (h : s.Small) (hfuel : 2 ^ 28 < fuel) (hn : n ≤ 2 ^ 31) :
    ∃ c, s.nextRefcountTableSize fuel n = some (c * s.clusterEntries) ∧
      growClusters (n / s.clusterEntries + 1) fuel (max 1 (s.refcountTableSize / s.clusterEntries)) = some c ∧
      n < c * s.clusterEntries ∧ c * s.clusterEntries < 2 ^ 32 := by
  obtain ⟨hlow, hhigh, -, -⟩ := h.entries
  have hsize := h.size
  have hq : n / s.clusterEntries ≤ 2 ^ 31 / 64 := (Nat.div_le_div_left hlow (by decide)).trans (Nat.div_le_div_right hn)
  obtain ⟨c, hc, hmc, -, hle⟩ := growClusters_right (m := n / s.clusterEntries + 1) (by omega) fuel
    (r := max 1 (s.refcountTableSize / s.clusterEntries)) (by omega) (by omega)
  have hupper : n < c * s.clusterEntries := by
    calc n < (n / s.clusterEntries + 1) * s.clusterEntries := lt_mul_of_div_lt (lt_succ_self _) (by omega)
      _ ≤ c * s.clusterEntries := mul_le_mul_right _ hmc
  have hbound : c * s.clusterEntries < 2 ^ 32 := by
    have hn' := div_mul_le_self n s.clusterEntries
    have hs' := div_mul_le_self s.refcountTableSize s.clusterEntries
    obtain rfl | hle := hle
    · obtain hone | hdiv := le_total 1 (s.refcountTableSize / s.clusterEntries)
      · rw [max_eq_right hone]
        omega
      · rw [max_eq_left hdiv]
        omega
    have := mul_le_mul_right s.clusterEntries hle
    have hsplit : 3 * (n / s.clusterEntries + 1) * s.clusterEntries =
        3 * (n / s.clusterEntries * s.clusterEntries) + 3 * s.clusterEntries := by ring
    rw [hsplit, mul_assoc] at this
    omega
  refine ⟨c, ?_, hc, hupper, hbound⟩
  rw [nextRefcountTableSize, mod_eq_of_lt (by omega), shiftRight_eq_div_pow, shiftRight_eq_div_pow]
  rw [clusterEntries] at hc hbound
  rw [hc, map_some, shiftLeft_eq, mod_eq_of_lt (by omega)]
  rfl

theorem State.Small.next_mono (h : s.Small) (hfuel : 2 ^ 28 < fuel) {n' t' : Nat} (hle : n ≤ n') (hn' : n' ≤ 2 ^ 31)
    (ht : s.nextRefcountTableSize fuel n = some t) (ht' : s.nextRefcountTableSize fuel n' = some t') : t ≤ t' := by
  obtain ⟨c, hc, hgrow, -⟩ := h.next hfuel (hle.trans hn')
  obtain ⟨c', hc', hgrow', -⟩ := h.next hfuel hn'
  obtain ⟨hlow, -⟩ := h.entries
  have hq : n' / s.clusterEntries ≤ 2 ^ 31 / 64 := (Nat.div_le_div_left hlow (by decide)).trans (Nat.div_le_div_right hn')
  rw [← some.inj (hc.symm.trans ht), ← some.inj (hc'.symm.trans ht')]
  refine mul_le_mul_right _ (growClusters_mono ?_ (by omega) (by omega) hgrow hgrow' (by omega))
  exact Nat.succ_le_succ (Nat.div_le_div_right hle)

/-! ### The loop -/

theorem sizeToClusters_mono (bits : Nat) (h : a ≤ b) : sizeToClusters bits a ≤ sizeToClusters bits b := by
  rw [sizeToClusters, sizeToClusters, shiftRight_eq_div_pow, shiftRight_eq_div_pow]
  exact Nat.div_le_div_right (by omega)

theorem minSize_mono (h : a ≤ b) : s.minSize a ≤ s.minSize b := by
  have hclusters := sizeToClusters_mono s.clusterBits h
  have hblocks : s.blocksClusters a ≤ s.blocksClusters b :=
    Nat.add_le_add_left (Nat.div_le_div_right (by omega)) 1
  exact Nat.add_le_add_left (Nat.div_le_div_right (by omega)) _

theorem State.Small.minSize_le (h : s.Small) (ht : t < 2 ^ 32) : s.minSize t ≤ 2 ^ 31 := by
  obtain ⟨hlow, -, hblock, hcluster⟩ := h.entries
  have hused := h.used
  have hclusters : sizeToClusters s.clusterBits t ≤ 2 ^ 32 := by
    rw [sizeToClusters, Nat.shiftRight_eq_div_pow, hcluster]
    apply Nat.div_le_of_le_mul
    omega
  have hblocks : s.blocksClusters t ≤ 1 + 2 ^ 27 := by
    refine Nat.add_le_add_left ?_ 1
    rw [hblock]
    apply Nat.div_le_of_le_mul
    omega
  have hmeta : (sizeToClusters s.clusterBits t + s.blocksClusters t + s.blockEntries - 1) / s.blockEntries ≤ 2 ^ 30 := by
    rw [hblock]
    apply Nat.div_le_of_le_mul
    omega
  rw [minSize]
  omega

/-- The sizes grow until they stay, in fewer rounds than there are numbers of 32 bits. -/
theorem State.Small.sizes (h : s.Small) (hfuel : 2 ^ 28 < fuel) (rounds : Nat) {last : Nat} (hlast : last < 2 ^ 32)
    (hnext : s.nextRefcountTableSize fuel (s.minSize last) = some t) (hle : last ≤ t) (hrounds : 2 ^ 32 - last ≤ rounds) :
    ∃ t, s.sizes fuel rounds last = some (t, s.blocksClusters t) ∧
      s.nextRefcountTableSize fuel (s.minSize t) = some t ∧ t < 2 ^ 32 := by
  induction rounds generalizing last t with
  | zero => omega
  | succ rounds ih =>
    rw [State.sizes, hnext]
    dsimp only
    split
    next hne =>
      obtain ⟨c, hc, -, -, ht⟩ := h.next hfuel (h.minSize_le hlast)
      rw [← some.inj (hnext.symm.trans hc)] at ht
      obtain ⟨c', hc', -⟩ := h.next hfuel (h.minSize_le ht)
      exact ih ht hc' (h.next_mono hfuel (minSize_mono hle) (h.minSize_le ht) hnext hc') (by omega)
    next heq =>
      obtain rfl := not_not.mp heq
      exact ⟨last, rfl, hnext, hlast⟩

theorem State.Small.newSizes (h : s.Small) : ∃ fuel t, 2 ^ 28 < fuel ∧ s.newSizes fuel = some (t, s.blocksClusters t) ∧
    s.nextRefcountTableSize fuel (s.minSize t) = some t ∧ t < 2 ^ 32 := by
  have hfuel : 2 ^ 28 < 2 ^ 33 := by decide
  have hused := h.used
  obtain ⟨c, hc, -, -, ht⟩ := h.next hfuel (n := s.blocksUsed + 1) (by omega)
  obtain ⟨c', hc', -⟩ := h.next hfuel (h.minSize_le ht)
  have hone : s.blocksUsed + 1 ≤ s.minSize (c * s.clusterEntries) := by
    obtain ⟨hlow, -, hblock, -⟩ := h.entries
    refine Nat.add_le_add_left ((Nat.one_le_div_iff (by omega)).mpr ?_) _
    have : 1 ≤ s.blocksClusters (c * s.clusterEntries) := le_add_right 1 _
    omega
  obtain ⟨t, hsizes, hnext, hlt⟩ := h.sizes hfuel (2 ^ 33) ht hc' (h.next_mono hfuel hone (h.minSize_le ht) hc hc') (by omega)
  refine ⟨2 ^ 33, t, hfuel, ?_, hnext, hlt⟩
  rw [State.newSizes, hc]
  exact hsizes

end Small

/-- On its way from the table there is, the table comes to a size that has room for one block more,
and fewer clusters than two refcount blocks have entries. -/
def State.Fits (s : State) : Prop :=
  ∃ j, (s.blocksUsed + 1) / s.clusterEntries < threeHalves^[j] (max 1 (s.refcountTableSize / s.clusterEntries)) ∧
    threeHalves^[j] (max 1 (s.refcountTableSize / s.clusterEntries)) ≤ 2 * s.blockEntries - 2

/-- The new blocks have an entry for each cluster of the table and of themselves, and every block has
its place in the table. -/
def State.SizesRight (s : State) (t b : Nat) : Prop :=
  sizeToClusters s.clusterBits (t * 8) + b ≤ b * s.blockEntries ∧ ∀ i < b, s.blocksUsed + i < t

section Fits
variable {s : State} (h : s.Small)
include h

/-- The clusters of a table, and what the loop takes for them. -/
theorem State.Small.tableClusters (c : Nat) : sizeToClusters s.clusterBits (c * s.clusterEntries * 8) = c ∧
    sizeToClusters s.clusterBits (c * s.clusterEntries) = (c + 7) / 8 := by
  obtain ⟨hlow, -, -, hcluster⟩ := h.entries
  have hdiv : ∀ k, (k * s.clusterEntries + (8 * s.clusterEntries - 1)) / (s.clusterEntries * 8) = (k + 7) / 8 := by
    intro k
    rw [← Nat.div_div_eq_div_mul,
      show k * s.clusterEntries + (8 * s.clusterEntries - 1) = s.clusterEntries - 1 + s.clusterEntries * (k + 7) by
        rw [mul_add, mul_comm k]; omega,
      Nat.add_mul_div_left _ _ (by omega), Nat.div_eq_of_lt (show s.clusterEntries - 1 < s.clusterEntries by omega),
      Nat.zero_add]
  rw [sizeToClusters, sizeToClusters, shiftRight_eq_div_pow, shiftRight_eq_div_pow, hcluster]
  refine ⟨?_, ?_⟩
  · have := hdiv (8 * c)
    rw [show c * s.clusterEntries * 8 = 8 * c * s.clusterEntries by ring, mul_comm 8 s.clusterEntries] at *
    omega
  · rw [mul_comm 8 s.clusterEntries] at *
    exact hdiv c

/-- A table of so few clusters takes two blocks, and they are enough. -/
theorem State.Small.two_blocks {c : Nat} (hpos : 0 < c) (hc : c ≤ 2 * s.blockEntries - 2) :
    s.blocksClusters (c * s.clusterEntries) = 2 ∧ s.minSize (c * s.clusterEntries) = s.blocksUsed + 1 := by
  obtain ⟨hlow, -, hblock, -⟩ := h.entries
  have htwo : s.blocksClusters (c * s.clusterEntries) = 2 := by
    rw [blocksClusters, (h.tableClusters c).2, show (c + 7) / 8 + s.blockEntries - 1 = (c + 7) / 8 - 1 + s.blockEntries by omega,
      Nat.add_div_right _ (by omega), Nat.div_eq_of_lt (by omega)]
  refine ⟨htwo, ?_⟩
  rw [minSize, htwo, (h.tableClusters c).2,
    show (c + 7) / 8 + 2 + s.blockEntries - 1 = (c + 7) / 8 + 1 + s.blockEntries by omega,
    Nat.add_div_right _ (by omega), Nat.div_eq_of_lt (by omega)]

theorem State.Small.few_clusters {c : Nat}
    (hfit : c + s.blocksClusters (c * s.clusterEntries) ≤ s.blocksClusters (c * s.clusterEntries) * s.blockEntries) :
    c ≤ 2 * s.blockEntries - 2 := by
  obtain ⟨hlow, -, hblock, -⟩ := h.entries
  rw [blocksClusters, (h.tableClusters c).2, add_mul, Nat.one_mul] at hfit
  have hle := div_mul_le_self ((c + 7) / 8 + s.blockEntries - 1) s.blockEntries
  have hone : (c + 7) / 8 ≤ s.blockEntries → ((c + 7) / 8 + s.blockEntries - 1) / s.blockEntries ≤ 1 := by
    intro hfew
    refine Nat.lt_succ_iff.mp ((Nat.div_lt_iff_lt_mul (by omega)).mpr ?_)
    omega
  have hpos : 0 < c → 1 ≤ ((c + 7) / 8 + s.blockEntries - 1) / s.blockEntries := by
    intro hc
    exact (one_le_div_iff (by omega)).mpr (by omega)
  generalize ((c + 7) / 8 + s.blockEntries - 1) / s.blockEntries = q at hfit hle hone hpos
  by_contra hmany
  have hq := hpos (by omega)
  by_cases hfew : (c + 7) / 8 ≤ s.blockEntries
  · obtain rfl : q = 1 := by have := hone hfew; omega
    omega
  · omega

/-- The loops end. What they end with is right exactly if the table comes to a size that fits. -/
theorem newSizes_right_iff : ∃ fuel t b, s.newSizes fuel = some (t, b) ∧ (s.SizesRight t b ↔ s.Fits) := by
  obtain ⟨fuel, t, hfuel, hsizes, hnext, ht⟩ := h.newSizes
  refine ⟨fuel, t, _, hsizes, ?_⟩
  have hused := h.used
  obtain ⟨hlow, -, hblock, -⟩ := h.entries
  have hquotient : ∀ n ≤ 2 ^ 31, n / s.clusterEntries + 1 ≤ 2 ^ 28 := fun n hn => by
    have := (Nat.div_le_div_left hlow (by decide)).trans (Nat.div_le_div_right (c := 64) hn)
    omega
  constructor
  · rintro ⟨hfit, -⟩
    obtain ⟨c, hc, hgrow, -⟩ := h.next hfuel (h.minSize_le ht)
    obtain ⟨hle, j, hj⟩ := growClusters_iterate (hquotient _ (h.minSize_le ht)) hgrow
    obtain rfl := some.inj (hnext.symm.trans hc)
    rw [(h.tableClusters c).1] at hfit
    refine ⟨j, ?_, hj ▸ h.few_clusters hfit⟩
    have hmin : s.blocksUsed + 1 ≤ s.minSize (c * s.clusterEntries) := by
      refine Nat.add_le_add_left ((Nat.one_le_div_iff (by omega)).mpr ?_) _
      have : 1 ≤ s.blocksClusters (c * s.clusterEntries) := le_add_right 1 _
      omega
    have := Nat.div_le_div_right (c := s.clusterEntries) hmin
    omega
  · rintro ⟨j, hlt, hj⟩
    obtain ⟨c, hc, hgrow, hroom, -⟩ := h.next hfuel (n := s.blocksUsed + 1) (by omega)
    have hle := growClusters_le (hquotient _ (by omega)) hgrow hlt
    have hpos := (growClusters_iterate (hquotient _ (by omega)) hgrow).1
    obtain ⟨htwo, hmin⟩ := h.two_blocks (c := c) ((Nat.succ_pos _).trans_le hpos) (hle.trans hj)
    -- the first size is the last one
    have hfirst : s.newSizes fuel = some (c * s.clusterEntries, 2) := by
      obtain ⟨rounds, rfl⟩ := Nat.exists_eq_succ_of_ne_zero (Nat.ne_zero_of_lt hfuel)
      rw [State.newSizes, hc, bind_some, State.sizes, hmin, hc, htwo]
      simp
    obtain ⟨rfl, hb⟩ := Prod.mk.inj (some.inj (hsizes.symm.trans hfirst))
    refine ⟨?_, fun i hi => by omega⟩
    rw [(h.tableClusters c).1, hb]
    omega

end Fits

/-- An image of 512 byte clusters with a table of one cluster, whose 64 blocks are used up. -/
theorem firstGrowth_right : ∃ fuel t b, newSizes ⟨9, 64, 16384⟩ fuel = some (t, b) ∧ SizesRight ⟨9, 64, 16384⟩ t b := by
  obtain ⟨fuel, t, b, hsizes, hright⟩ := newSizes_right_iff (s := ⟨9, 64, 16384⟩) ⟨by decide, by decide, by decide⟩
  exact ⟨fuel, t, b, hsizes, hright.2 ⟨1, by decide, by decide⟩⟩

/-- An image of 8388608 clusters of 512 bytes: the new blocks have 512 entries, but the new table
and they take 770 clusters. -/
theorem newSizes_wrong : newSizes ⟨9, 32768, 8388608⟩ 3 = some (49152, 2) ∧ ¬ SizesRight ⟨9, 32768, 8388608⟩ 49152 2 :=
  ⟨by decide, fun h => absurd h.1 (by decide)⟩

end GemDroid.Qcow2.TableSize
