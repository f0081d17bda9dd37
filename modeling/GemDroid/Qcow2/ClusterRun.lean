import GemDroid.Qcow2.TableSize

/-! Runs of clusters (`qcow2_get_cluster_offset` in `block/qcow2-cluster.c`).

For a guest offset and a number of sectors the function gives the offset in the file and how many of
the sectors are there one behind the other. It compares table entries with a stride of one
cluster; an entry of a compressed cluster may match the stride too, and one that has only the
flag `QCOW_OFLAG_COPIED` matches nothing. -/
namespace GemDroid.Qcow2.ClusterRun
open TableSize (sizeToClusters)

/-- The tables of an image. Loading an L2 table may fail. -/
structure Image where
  clusterBits : Nat
  l1Size : Nat
  l1Table : Nat → UInt64
  l2Load : Nat → Option (Nat → UInt64)

open Image Nat

def clear (entry : UInt64) : Nat := entry.toNat % 2 ^ 63

/-- The flag `QCOW_OFLAG_COMPRESSED`. -/
def Compressed (entry : UInt64) : Prop := entry.toNat.testBit 62 = true

instance (entry : UInt64) : Decidable (Compressed entry) := inferInstanceAs (Decidable (_ = true))

def countWhile (p : Nat → Bool) : Nat → Nat → Nat
  | 0, i => i
  | rounds + 1, i => if p i then countWhile p rounds (i + 1) else i

def countContiguousClusters (nbClusters clusterSize : Nat) (table : Nat → UInt64) (first : Nat) : Nat :=
  if clear (table first) = 0 then 0
  else countWhile (fun i => (clear (table first) + i * clusterSize) % 2 ^ 64 = clear (table (first + i))) nbClusters 0

def countContiguousFreeClusters (nbClusters : Nat) (table : Nat → UInt64) (first : Nat) : Nat :=
  countWhile (fun i => table (first + i) = 0) nbClusters 0

namespace Image

def clusterSectors (s : Image) : Nat := 2 ^ (s.clusterBits - 9)

def l2Size (s : Image) : Nat := 2 ^ (s.clusterBits - 3)

def l1Bits (s : Image) : Nat := s.clusterBits - 3 + s.clusterBits

def indexInCluster (s : Image) (offset : Nat) : Nat := (offset >>> 9) &&& (s.clusterSectors - 1)

/-- The sectors up to the end of the L1 entry, from the beginning of the cluster on. -/
def nbAvailable (s : Image) (offset : Nat) : Nat :=
  ((2 ^ s.l1Bits - (offset &&& (2 ^ s.l1Bits - 1))) >>> 9) + s.indexInCluster offset

def nbNeeded (s : Image) (offset num : Nat) : Nat := min (num + s.indexInCluster offset) (s.nbAvailable offset)

/-- The number of sectors and the offset that are returned for `nb` sectors that are there. -/
def out (s : Image) (offset num nb : Nat) (entry : UInt64) : Int × Nat :=
  ((min nb (s.nbNeeded offset num) : Nat) - (s.indexInCluster offset : Nat), clear entry)

def count (s : Image) (table : Nat → UInt64) (first nbClusters : Nat) : Nat :=
  if table first = 0 then countContiguousFreeClusters nbClusters table first
  else countContiguousClusters nbClusters (2 ^ s.clusterBits) table first

def l2Index (s : Image) (offset : Nat) : Nat := (offset >>> s.clusterBits) &&& (s.l2Size - 1)

/-- `qcow2_get_cluster_offset`, with no result where loading the table fails. The L1 index has 32
bits. -/
def getClusterOffset (s : Image) (offset num : Nat) : Option (Int × Nat) :=
  if (offset >>> s.l1Bits) % 2 ^ 32 ≥ s.l1Size then some (s.out offset num (s.nbAvailable offset) 0)
  else if s.l1Table ((offset >>> s.l1Bits) % 2 ^ 32) = 0 then some (s.out offset num (s.nbAvailable offset) 0)
  else
    (s.l2Load (clear (s.l1Table ((offset >>> s.l1Bits) % 2 ^ 32)))).map fun table =>
      s.out offset num
        (s.count table (s.l2Index offset) (sizeToClusters s.clusterBits (s.nbNeeded offset num <<< 9)) *
          s.clusterSectors) (table (s.l2Index offset))

/-! ### What the tables say -/

def l1Sectors (s : Image) : Nat := s.clusterSectors * s.l2Size

def entryOf (s : Image) (sector : Nat) : UInt64 :=
  if sector / s.l1Sectors < s.l1Size ∧ s.l1Table (sector / s.l1Sectors) ≠ 0 then
    match s.l2Load (clear (s.l1Table (sector / s.l1Sectors))) with
    | none => 0
    | some table => table (sector / s.clusterSectors % s.l2Size)
  else 0

/-- The sectors of a run are free; or each is where the run says; or they are in one compressed
cluster. -/
def SectorsRight (s : Image) (offset : Nat) (run : Int × Nat) : Prop :=
  (run.2 = 0 ∧ ∀ k : Nat, k < run.1 → s.entryOf (offset / 512 + k) = 0) ∨
    (∀ k : Nat, k < run.1 → s.entryOf (offset / 512 + k) ≠ 0 ∧ ¬ Compressed (s.entryOf (offset / 512 + k)) ∧
      clear (s.entryOf (offset / 512 + k)) + (offset / 512 + k) % s.clusterSectors * 512 =
        run.2 + (s.indexInCluster offset + k) * 512) ∨
    (Compressed (s.entryOf (offset / 512)) ∧ run.2 = clear (s.entryOf (offset / 512)) ∧
      s.indexInCluster offset + run.1 ≤ s.clusterSectors)

def RunRight (s : Image) (offset num : Nat) (run : Int × Nat) : Prop :=
  1 ≤ run.1 ∧ run.1 ≤ num ∧ s.SectorsRight offset run

/-- Of the clusters that follow with a stride of one cluster none is compressed, as far as the
request comes to a whole sector of them. -/
def Plain (s : Image) (offset num : Nat) : Prop :=
  ∀ j > 0, j * s.clusterSectors < s.indexInCluster offset + num →
    offset % 2 ^ s.l1Bits + (j * s.clusterSectors + 1) * 512 ≤ 2 ^ s.l1Bits + s.indexInCluster offset * 512 →
    (∀ i ≤ j, clear (s.entryOf (offset / 512 + i * s.clusterSectors)) =
      clear (s.entryOf (offset / 512)) + i * 2 ^ s.clusterBits) →
    ¬ Compressed (s.entryOf (offset / 512 + j * s.clusterSectors))

/-- A whole sector is left before the end of the L1 entry. Where the L1 index does not fit 32 bits,
there is no cluster at the offset it is cut to. The entry of the offset is not the flag
`QCOW_OFLAG_COPIED` alone. -/
structure Meets (s : Image) (offset num : Nat) : Prop where
  sector : offset % 2 ^ s.l1Bits + 512 ≤ 2 ^ s.l1Bits
  index : 2 ^ 32 ≤ offset / 2 ^ s.l1Bits → s.entryOf (offset % (2 ^ s.l1Bits * 2 ^ 32) / 512) = 0
  flag : (s.entryOf (offset / 512)).toNat ≠ 2 ^ 63
  plain : s.Plain offset num

end Image

/-! ### Counting -/

theorem countWhile_right (p : Nat → Bool) (rounds i : Nat) :
    i ≤ countWhile p rounds i ∧ countWhile p rounds i ≤ i + rounds ∧ (∀ j, i ≤ j → j < countWhile p rounds i → p j) ∧
      ∀ j < i + rounds, (∀ l, i ≤ l → l ≤ j → p l) → i ≤ j → j < countWhile p rounds i := by
  induction rounds generalizing i with
  | zero => exact ⟨le_rfl, le_rfl, fun j hj hj' => absurd hj' (by rw [countWhile]; omega), fun j hj _ hi => by omega⟩
  | succ rounds ih =>
    rw [countWhile]
    split
    next hp =>
      obtain ⟨hle, hlt, hall, hreach⟩ := ih (i + 1)
      refine ⟨by omega, by omega, fun j hj hj' => ?_, fun j hj hp hi => ?_⟩
      · obtain rfl | hj := hj.eq_or_lt
        · exact hp
        · exact hall j hj hj'
      · obtain rfl | hi := hi.eq_or_lt
        · omega
        · exact hreach j (by omega) (fun l hl => hp l (by omega)) hi
    next hp => exact ⟨le_rfl, by omega, fun j hj hj' => by omega, fun j _ h hi => absurd (h i le_rfl hi) hp⟩

theorem clear_lt (entry : UInt64) : clear entry < 2 ^ 63 := mod_lt _ (by decide)

theorem compressed_iff (entry : UInt64) : Compressed entry ↔ 2 ^ 62 ≤ clear entry := by
  rw [Compressed, testBit_eq_decide_div_mod_eq, decide_eq_true_iff, clear]
  omega

theorem eq_zero_iff (entry : UInt64) : entry = 0 ↔ clear entry = 0 ∧ entry.toNat ≠ 2 ^ 63 := by
  have hlt := entry.toNat_lt
  rw [← UInt64.toNat_inj, UInt64.toNat_zero, clear]
  omega

/-! ### Sectors -/

/-- A sector behind another one in the part of the disk that an L1 entry is for. -/
theorem sector_split {S L n k : Nat} (hS : 0 < S) (h : n % (S * L) + k < S * L) :
    (n + k) / (S * L) = n / (S * L) ∧ (n + k) / S % L = n / S % L + (n % S + k) / S := by
  constructor
  · conv_lhs => rw [← mod_add_div n (S * L), add_right_comm]
    rw [add_mul_div_left _ _ (by omega), div_eq_of_lt h, zero_add]
  · have hdiv : (n + k) / S = n / S + (n % S + k) / S := by
      conv_lhs => rw [← mod_add_div n S, add_right_comm]
      rw [add_mul_div_left _ _ hS, add_comm]
    have hlt : n / S % L + (n % S + k) / S < L := by
      rw [mod_mul] at h
      have : (n % S + k) / S < L - n / S % L := by
        rw [Nat.div_lt_iff_lt_mul hS, mul_comm, Nat.mul_sub]
        omega
      exact add_lt_of_lt_sub' this
    rw [hdiv, ← mod_add_mod, mod_eq_of_lt hlt]

section Geometry
variable {s : Image} {offset num : Nat}

namespace Image

theorem clusterSectors_pos (s : Image) : 0 < s.clusterSectors := Nat.two_pow_pos _

theorem l1Sectors_le (hbits : s.clusterBits ≤ 21) : s.l1Sectors ≤ 2 ^ 30 := by
  have hS : s.clusterSectors ≤ 2 ^ 12 := Nat.pow_le_pow_right (by decide) (by omega)
  have hL : s.l2Size ≤ 2 ^ 18 := Nat.pow_le_pow_right (by decide) (by omega)
  exact (Nat.mul_le_mul hS hL).trans (by decide)

theorem two_pow_clusterBits (hbits : 9 ≤ s.clusterBits) : 2 ^ s.clusterBits = 512 * s.clusterSectors := by
  rw [clusterSectors, show (512 : Nat) = 2 ^ 9 by rfl, ← pow_add, Nat.add_sub_cancel' hbits]

theorem two_pow_l1Bits (hbits : 9 ≤ s.clusterBits) : 2 ^ s.l1Bits = 512 * s.l1Sectors := by
  rw [l1Bits, pow_add, two_pow_clusterBits hbits, l1Sectors, l2Size]
  ring

theorem indexInCluster_eq (s : Image) (offset : Nat) : s.indexInCluster offset = offset / 512 % s.clusterSectors := by
  rw [indexInCluster, clusterSectors, and_two_pow_sub_one_eq_mod, shiftRight_eq_div_pow]

section
variable (hbits : 9 ≤ s.clusterBits)
include hbits

theorem l2Index_eq : s.l2Index offset = offset / 512 / s.clusterSectors % s.l2Size := by
  rw [l2Index, l2Size, and_two_pow_sub_one_eq_mod, shiftRight_eq_div_pow, two_pow_clusterBits hbits,
    Nat.div_div_eq_div_mul]

theorem l1Index_eq (hindex : offset / 2 ^ s.l1Bits < 2 ^ 32) :
    (offset >>> s.l1Bits) % 2 ^ 32 = offset / 512 / s.l1Sectors := by
  rw [Nat.shiftRight_eq_div_pow, Nat.mod_eq_of_lt hindex, two_pow_l1Bits hbits, Nat.div_div_eq_div_mul]

theorem nbAvailable_bounds (hsector : offset % 2 ^ s.l1Bits + 512 ≤ 2 ^ s.l1Bits) :
    s.indexInCluster offset + 1 ≤ s.nbAvailable offset ∧
      offset / 512 % s.l1Sectors + s.nbAvailable offset ≤ s.l1Sectors + s.indexInCluster offset := by
  have hmod : offset % (512 * s.l1Sectors) / 512 = offset / 512 % s.l1Sectors := mod_mul_right_div_self ..
  rw [nbAvailable, and_two_pow_sub_one_eq_mod, shiftRight_eq_div_pow]
  rw [two_pow_l1Bits hbits] at hsector ⊢
  rw [← hmod]
  omega

omit hbits in
theorem lt_nbNeeded_iff {n : Nat} : n < s.nbNeeded offset num ↔ n < s.indexInCluster offset + num ∧
    offset % 2 ^ s.l1Bits + (n + 1) * 512 ≤ 2 ^ s.l1Bits + s.indexInCluster offset * 512 := by
  have hlt : offset % 2 ^ s.l1Bits < 2 ^ s.l1Bits := mod_lt _ (Nat.two_pow_pos _)
  rw [nbNeeded, lt_min_iff, nbAvailable, and_two_pow_sub_one_eq_mod, shiftRight_eq_div_pow]
  omega

/-- The clusters that are looked at are those of the sectors that are needed. -/
theorem lt_sizeToClusters_iff {n j : Nat} : j < sizeToClusters s.clusterBits (n <<< 9) ↔ j * s.clusterSectors < n := by
  have hpos := s.clusterSectors_pos
  rw [sizeToClusters, shiftRight_eq_div_pow, shiftLeft_eq, two_pow_clusterBits hbits, ← succ_le_iff,
    le_div_iff_mul_le (by omega), succ_mul, show j * (512 * s.clusterSectors) = 512 * (j * s.clusterSectors) by ring]
  omega

theorem entryOf_run {k : Nat} (h : offset / 512 % s.l1Sectors + k < s.l1Sectors) : s.entryOf (offset / 512 + k) =
      if offset / 512 / s.l1Sectors < s.l1Size ∧ s.l1Table (offset / 512 / s.l1Sectors) ≠ 0 then
        match s.l2Load (clear (s.l1Table (offset / 512 / s.l1Sectors))) with
        | none => 0 | some table => table (s.l2Index offset + (s.indexInCluster offset + k) / s.clusterSectors)
      else 0 := by
  obtain ⟨hl1, hl2⟩ := sector_split s.clusterSectors_pos h
  rw [entryOf, indexInCluster_eq, l2Index_eq hbits, ← hl2]
  rw [l1Sectors] at *
  rw [hl1]

section
variable (hsector : offset % 2 ^ s.l1Bits + 512 ≤ 2 ^ s.l1Bits)
include hsector

/-- The first sectors of the clusters that follow are in the part of the disk of the L1 entry, if
a sector that is needed is in them. -/
theorem cluster_inside {i : Nat} (hi : i * s.clusterSectors < s.nbNeeded offset num) :
    offset / 512 % s.l1Sectors + i * s.clusterSectors < s.l1Sectors ∧
      i * s.clusterSectors < s.indexInCluster offset + num := by
  obtain ⟨-, havail⟩ := nbAvailable_bounds hbits hsector
  have hneeded : i * s.clusterSectors < num + s.indexInCluster offset ∧ i * s.clusterSectors < s.nbAvailable offset :=
    lt_min_iff.mp hi
  refine ⟨?_, by omega⟩
  -- both sides are in whole clusters, but for the index in the cluster
  have hmod : offset / 512 % s.l1Sectors = s.indexInCluster offset +
      s.clusterSectors * (offset / 512 / s.clusterSectors % s.l2Size) := by
    rw [l1Sectors, mod_mul, indexInCluster_eq]
  have hindex : s.indexInCluster offset < s.clusterSectors := by
    rw [indexInCluster_eq]
    exact mod_lt _ s.clusterSectors_pos
  have hlt : s.clusterSectors * (offset / 512 / s.clusterSectors % s.l2Size + i) < s.clusterSectors * s.l2Size := by
    rw [mul_add, mul_comm s.clusterSectors i, ← l1Sectors]
    omega
  have hle := Nat.mul_le_mul_left s.clusterSectors (Nat.succ_le_of_lt (Nat.lt_of_mul_lt_mul_left hlt))
  rw [mul_succ, mul_add, mul_comm s.clusterSectors i, ← l1Sectors] at hle
  omega

/-- A run that is as long as the sectors that are there, if the sector asked for is there. -/
theorem out_bounds (hnum : 1 ≤ num) {nb : Nat} (hnb : s.indexInCluster offset < nb) (entry : UInt64) :
    1 ≤ (s.out offset num nb entry).1 ∧ (s.out offset num nb entry).1 ≤ num ∧
      ∀ k : Nat, k < (s.out offset num nb entry).1 →
        s.indexInCluster offset + k < nb ∧ offset / 512 % s.l1Sectors + k < s.l1Sectors := by
  obtain ⟨hone, havail⟩ := nbAvailable_bounds hbits hsector
  simp only [out, nbNeeded]
  refine ⟨by omega, by omega, fun k hk => by omega⟩

end

omit hbits in
theorem out_short (hsector : ¬ offset % 2 ^ s.l1Bits + 512 ≤ 2 ^ s.l1Bits) (nb : Nat) (entry : UInt64) :
    (s.out offset num nb entry).1 < 1 := by
  have hshort : ¬ s.indexInCluster offset < s.nbNeeded offset num := by
    rw [lt_nbNeeded_iff]
    omega
  simp only [out]
  omega

end

theorem indexInCluster_lt (s : Image) (offset : Nat) : s.indexInCluster offset < s.clusterSectors := by
  rw [indexInCluster_eq]
  exact mod_lt _ s.clusterSectors_pos

end Image
end Geometry

/-! ### The run -/

section Run
variable {s : Image} {offset num : Nat} {run : Int × Nat}

/-- The number of clusters that are counted from an entry that is not zero. -/
theorem count_pos {table : Nat → UInt64} {first nb : Nat} (hnb : 0 < nb) (hflag : (table first).toNat ≠ 2 ^ 63) :
    0 < s.count table first nb := by
  rw [Image.count]
  split
  next hzero => exact (countWhile_right _ nb 0).2.2.2 0 (by omega) (fun l _ hl => by simpa [le_zero.mp hl] using hzero) le_rfl
  next hzero =>
    have hclear : clear (table first) ≠ 0 := fun h => hzero ((eq_zero_iff _).mpr ⟨h, hflag⟩)
    rw [countContiguousClusters, if_neg hclear]
    refine (countWhile_right _ nb 0).2.2.2 0 (by omega) (fun l _ hl => ?_) le_rfl
    rw [le_zero.mp hl]
    simpa using mod_eq_of_lt ((clear_lt (table first)).trans (by decide : 2 ^ 63 < 2 ^ 64))

theorem out_le (s : Image) (offset num nb : Nat) (entry : UInt64) : (s.out offset num nb entry).1 ≤ num := by
  simp only [out, nbNeeded]
  omega

/-- The clusters that are counted from an entry with an offset: they follow with a stride of one
cluster, and sectors of them are needed. -/
theorem lt_count_iff (hbits : 9 ≤ s.clusterBits ∧ s.clusterBits ≤ 21)
    (hsector : offset % 2 ^ s.l1Bits + 512 ≤ 2 ^ s.l1Bits) {table : Nat → UInt64} {first : Nat}
    (hclear : clear (table first) ≠ 0) (j : Nat) :
    j < s.count table first (sizeToClusters s.clusterBits (s.nbNeeded offset num <<< 9)) ↔
      j * s.clusterSectors < s.nbNeeded offset num ∧
        ∀ i ≤ j, clear (table (first + i)) = clear (table first) + i * 2 ^ s.clusterBits := by
  have hempty : table first ≠ 0 := fun h => hclear (by rw [h]; rfl)
  have hle := l1Sectors_le hbits.2
  have hcluster := two_pow_clusterBits hbits.1
  have hstep : ∀ i, i * s.clusterSectors < s.nbNeeded offset num →
      (clear (table first) + i * 2 ^ s.clusterBits) % 2 ^ 64 = clear (table first) + i * 2 ^ s.clusterBits := by
    intro i hi
    have hx := clear_lt (table first)
    have hinside := (cluster_inside hbits.1 hsector hi).1
    rw [show i * 2 ^ s.clusterBits = 512 * (i * s.clusterSectors) by rw [hcluster]; ring]
    exact mod_eq_of_lt (by omega)
  rw [Image.count, if_neg hempty, countContiguousClusters, if_neg hclear]
  obtain ⟨-, hcnb, hall, hreach⟩ := countWhile_right (fun i =>
    (clear (table first) + i * 2 ^ s.clusterBits) % 2 ^ 64 = clear (table (first + i)))
    (sizeToClusters s.clusterBits (s.nbNeeded offset num <<< 9)) 0
  have hneeded : ∀ i ≤ j, j * s.clusterSectors < s.nbNeeded offset num → i * s.clusterSectors < s.nbNeeded offset num :=
    fun i hi hj => (Nat.mul_le_mul_right _ hi).trans_lt hj
  constructor
  · intro hj
    have hlt := (lt_sizeToClusters_iff hbits.1).mp (hj.trans_le (hcnb.trans_eq (zero_add _)))
    refine ⟨hlt, fun i hi => ?_⟩
    have heq := hall i (zero_le i) (hi.trans_lt hj)
    rw [decide_eq_true_eq, hstep i (hneeded i hi hlt)] at heq
    exact heq.symm
  · rintro ⟨hlt, heq⟩
    refine hreach j (by rw [zero_add]; exact (lt_sizeToClusters_iff hbits.1).mpr hlt) (fun i _ hi => ?_) (zero_le j)
    rw [decide_eq_true_eq, hstep i (hneeded i hi hlt), heq i hi]

section
variable (hbits : 9 ≤ s.clusterBits ∧ s.clusterBits ≤ 21)

section Counted
variable {table : Nat → UInt64} {first c : Nat}
  (hsector : offset % 2 ^ s.l1Bits + 512 ≤ 2 ^ s.l1Bits) (hnum : 1 ≤ num)
  (hentry : ∀ k, offset / 512 % s.l1Sectors + k < s.l1Sectors →
    s.entryOf (offset / 512 + k) = table (first + (s.indexInCluster offset + k) / s.clusterSectors))
include hbits hsector hentry

theorem entryOf_cluster {i : Nat} (hi : i * s.clusterSectors < s.nbNeeded offset num) :
    s.entryOf (offset / 512 + i * s.clusterSectors) = table (first + i) := by
  rw [hentry _ (cluster_inside hbits.1 hsector hi).1, add_mul_div_right _ _ s.clusterSectors_pos,
    div_eq_of_lt (s.indexInCluster_lt offset), zero_add]

/-- The clusters behind the first that are counted are those that must not be compressed. -/
theorem plain_iff (hfirst : s.entryOf (offset / 512) = table first) (hclear : clear (table first) ≠ 0) :
    s.Plain offset num ↔
      ∀ j < s.count table first (sizeToClusters s.clusterBits (s.nbNeeded offset num <<< 9)), 0 < j →
        ¬ Compressed (table (first + j)) := by
  refine forall_congr' fun j => ?_
  have hcluster : ∀ i ≤ j, j * s.clusterSectors < s.nbNeeded offset num →
      s.entryOf (offset / 512 + i * s.clusterSectors) = table (first + i) := fun i hi hj =>
    entryOf_cluster hbits hsector hentry ((Nat.mul_le_mul_right _ hi).trans_lt hj)
  rw [lt_count_iff hbits hsector hclear, hfirst]
  constructor
  · rintro hplain ⟨hj, hstride⟩ hpos
    obtain ⟨hreach, hinside⟩ := lt_nbNeeded_iff.mp hj
    rw [← hcluster j le_rfl hj]
    exact hplain hpos hreach hinside fun i hi => by rw [hcluster i hi hj, hstride i hi]
  · intro hplain hpos hreach hinside hstride
    have hj := lt_nbNeeded_iff.mpr ⟨hreach, hinside⟩
    rw [hcluster j le_rfl hj]
    exact hplain ⟨hj, fun i hi => by rw [← hcluster i hi hj, hstride i hi]⟩ hpos

include hnum

theorem sectors_of_free (hempty : table first = 0) : s.SectorsRight offset
    (s.out offset num (s.count table first (sizeToClusters s.clusterBits (s.nbNeeded offset num <<< 9)) * s.clusterSectors)
      (table first)) := by
  have hpos : 0 < s.count table first (sizeToClusters s.clusterBits (s.nbNeeded offset num <<< 9)) := by
    refine count_pos ((lt_sizeToClusters_iff hbits.1).mpr ?_) (by rw [hempty]; decide)
    rw [zero_mul, lt_nbNeeded_iff]
    omega
  obtain ⟨-, -, hinside⟩ := out_bounds hbits.1 hsector hnum
    ((s.indexInCluster_lt offset).trans_le (Nat.le_mul_of_pos_left _ hpos)) (table first)
  refine .inl ⟨by rw [out, hempty]; rfl, fun k hk => ?_⟩
  obtain ⟨hlt, hk⟩ := hinside k hk
  rw [Image.count, if_pos hempty, countContiguousFreeClusters, ← div_lt_iff_lt_mul s.clusterSectors_pos] at hlt
  rw [hentry k hk]
  simpa using (countWhile_right _ _ _).2.2.1 _ (zero_le _) hlt

/-- A run of clusters is right exactly if none behind the first is compressed. -/
theorem sectors_iff (hc : 0 < c) (hstride : ∀ i < c, clear (table (first + i)) = clear (table first) + i * 2 ^ s.clusterBits)
    (hneeded : ∀ i < c, i * s.clusterSectors < s.nbNeeded offset num) (hclear : clear (table first) ≠ 0)
    (hfirst : s.entryOf (offset / 512) = table first) :
    s.SectorsRight offset (s.out offset num (c * s.clusterSectors) (table first)) ↔
      ∀ j < c, 0 < j → ¬ Compressed (table (first + j)) := by
  have hspos := s.clusterSectors_pos
  have hindexlt := s.indexInCluster_lt offset
  have hcluster := two_pow_clusterBits hbits.1
  obtain ⟨hlow, -, hinside⟩ := out_bounds hbits.1 hsector hnum (hindexlt.trans_le (Nat.le_mul_of_pos_left _ hc)) (table first)
  constructor
  · intro hright j hj hpos hcomp
    -- the first sector of the compressed cluster is in the run
    have hle := Nat.mul_le_mul_right s.clusterSectors (succ_le_of_lt hpos)
    have hend := Nat.mul_le_mul_right s.clusterSectors (succ_le_of_lt hj)
    have hj' := hneeded j hj
    rw [succ_mul] at hle hend
    have hk : ((j * s.clusterSectors - s.indexInCluster offset : Nat) : Int) <
        (s.out offset num (c * s.clusterSectors) (table first)).1 := by
      simp only [out]
      omega
    have hat : s.entryOf (offset / 512 + (j * s.clusterSectors - s.indexInCluster offset)) = table (first + j) := by
      rw [hentry _ (hinside _ hk).2, show s.indexInCluster offset + (j * s.clusterSectors - s.indexInCluster offset) =
        j * s.clusterSectors by omega, Nat.mul_div_cancel _ hspos]
    obtain ⟨hzero, -⟩ | hplain | ⟨-, -, hone⟩ := hright
    · exact hclear hzero
    · exact (hplain _ hk).2.1 (hat ▸ hcomp)
    · omega
  · intro hplain
    refine .inr ?_
    by_cases hcomp : Compressed (table first)
    · -- a second cluster would be compressed too
      have hone : c = 1 := by
        by_contra hne
        refine hplain 1 (by omega) one_pos ?_
        rw [compressed_iff] at hcomp ⊢
        rw [hstride 1 (by omega)]
        omega
      refine .inr ⟨hfirst ▸ hcomp, by rw [hfirst]; rfl, ?_⟩
      rw [hone, one_mul, out]
      dsimp only
      omega
    refine .inl fun k hk => ?_
    obtain ⟨hlt, hk⟩ := hinside k hk
    rw [← div_lt_iff_lt_mul hspos] at hlt
    have hmod : (offset / 512 + k) % s.clusterSectors = (s.indexInCluster offset + k) % s.clusterSectors := by
      rw [indexInCluster_eq, mod_add_mod]
    rw [hentry k hk, hmod, hstride _ hlt]
    refine ⟨fun hnull => ?_, ?_, ?_⟩
    · have := hstride _ hlt
      rw [hnull, show clear 0 = 0 from rfl] at this
      omega
    · obtain hz | hjpos := Nat.eq_zero_or_pos ((s.indexInCluster offset + k) / s.clusterSectors)
      · rwa [hz, add_zero]
      · exact hplain _ hlt hjpos
    · have hdiv := div_add_mod (s.indexInCluster offset + k) s.clusterSectors
      rw [hcluster, out]
      generalize s.indexInCluster offset + k = n at hdiv ⊢
      calc clear (table first) + n / s.clusterSectors * (512 * s.clusterSectors) + n % s.clusterSectors * 512
          = clear (table first) + (s.clusterSectors * (n / s.clusterSectors) + n % s.clusterSectors) * 512 := by ring
        _ = clear (table first) + n * 512 := by rw [hdiv]

end Counted

variable (hindex : offset / 2 ^ s.l1Bits < 2 ^ 32) (h : s.getClusterOffset offset num = some run)
include hbits hindex h

/-- There is no L2 table, and no sector has an entry; or the run is counted in one. -/
theorem exists_table : (run = s.out offset num (s.nbAvailable offset) 0 ∧
      ∀ k, offset / 512 % s.l1Sectors + k < s.l1Sectors → s.entryOf (offset / 512 + k) = 0) ∨
    ∃ table first, (∀ k, offset / 512 % s.l1Sectors + k < s.l1Sectors →
        s.entryOf (offset / 512 + k) = table (first + (s.indexInCluster offset + k) / s.clusterSectors)) ∧
      run = s.out offset num (s.count table first (sizeToClusters s.clusterBits (s.nbNeeded offset num <<< 9)) *
        s.clusterSectors) (table first) := by
  rw [getClusterOffset, l1Index_eq hbits.1 hindex] at h
  by_cases hl1 : offset / 512 / s.l1Sectors < s.l1Size ∧ s.l1Table (offset / 512 / s.l1Sectors) ≠ 0
  · rw [if_neg (not_le.mpr hl1.1), if_neg hl1.2] at h
    obtain ⟨table, htable, rfl⟩ := Option.map_eq_some_iff.mp h
    refine .inr ⟨table, _, fun k hk => ?_, rfl⟩
    rw [entryOf_run hbits.1 hk, if_pos hl1, htable]
  · refine .inl ⟨?_, fun k hk => by rw [entryOf_run hbits.1 hk, if_neg hl1]⟩
    split at h
    · exact (Option.some.inj h).symm
    next hsize =>
      rw [if_pos (not_not.mp fun hne => hl1 ⟨not_le.mp hsize, hne⟩)] at h
      exact (Option.some.inj h).symm

theorem run_snd : run.2 = clear (s.entryOf (offset / 512)) := by
  have hzero : offset / 512 % s.l1Sectors + 0 < s.l1Sectors := mod_lt _ (Nat.mul_pos s.clusterSectors_pos (Nat.two_pow_pos _))
  obtain ⟨rfl, hnone⟩ | ⟨table, first, hentry, rfl⟩ := exists_table hbits hindex h
  · rw [← add_zero (offset / 512), hnone 0 hzero]
    rfl
  · rw [← add_zero (offset / 512), hentry 0 hzero, add_zero, div_eq_of_lt (s.indexInCluster_lt offset)]
    rfl

theorem one_le_run_iff (hnum : 1 ≤ num) :
    1 ≤ run.1 ↔ offset % 2 ^ s.l1Bits + 512 ≤ 2 ^ s.l1Bits ∧ (s.entryOf (offset / 512)).toNat ≠ 2 ^ 63 := by
  by_cases hsector : offset % 2 ^ s.l1Bits + 512 ≤ 2 ^ s.l1Bits
  swap
  · refine iff_of_false ?_ fun hand => hsector hand.1
    obtain ⟨rfl, -⟩ | ⟨table, first, -, rfl⟩ := exists_table hbits hindex h
    · exact not_le.mpr (out_short hsector _ _)
    · exact not_le.mpr (out_short hsector _ _)
  rw [and_iff_right hsector]
  obtain ⟨rfl, hnone⟩ | ⟨table, first, hentry, rfl⟩ := exists_table hbits hindex h
  · have hindexlt : s.indexInCluster offset < s.nbAvailable offset := (nbAvailable_bounds hbits.1 hsector).1
    refine iff_of_true (out_bounds hbits.1 hsector hnum hindexlt 0).1 ?_
    rw [← add_zero (offset / 512), hnone 0 (mod_lt _ (Nat.mul_pos s.clusterSectors_pos (Nat.two_pow_pos _)))]
    decide
  · have hneeded : 0 * s.clusterSectors < s.nbNeeded offset num := by
      rw [zero_mul, lt_nbNeeded_iff]
      omega
    have hfirst : s.entryOf (offset / 512) = table first := by
      have := entryOf_cluster hbits hsector hentry hneeded
      rwa [zero_mul, add_zero, add_zero] at this
    rw [hfirst]
    constructor
    · intro hone hflag
      have hclear : clear (table first) = 0 := by rw [clear, hflag, mod_self]
      have hempty : table first ≠ 0 := fun hzero => ((eq_zero_iff _).mp hzero).2 hflag
      rw [Image.count, if_neg hempty, countContiguousClusters, if_pos hclear, out] at hone
      dsimp only at hone
      omega
    · intro hflag
      have hpos : 0 < s.count table first (sizeToClusters s.clusterBits (s.nbNeeded offset num <<< 9)) :=
        count_pos ((lt_sizeToClusters_iff hbits.1).mpr hneeded) hflag
      exact (out_bounds hbits.1 hsector hnum ((s.indexInCluster_lt offset).trans_le (Nat.le_mul_of_pos_left _ hpos)) _).1

theorem sectorsRight_iff (hnum : 1 ≤ num) (hsector : offset % 2 ^ s.l1Bits + 512 ≤ 2 ^ s.l1Bits)
    (hflag : (s.entryOf (offset / 512)).toNat ≠ 2 ^ 63) : s.SectorsRight offset run ↔ s.Plain offset num := by
  obtain ⟨rfl, hnone⟩ | ⟨table, first, hentry, rfl⟩ := exists_table hbits hindex h
  · have hindexlt : s.indexInCluster offset < s.nbAvailable offset := (nbAvailable_bounds hbits.1 hsector).1
    obtain ⟨-, -, hinside⟩ := out_bounds hbits.1 hsector hnum hindexlt 0
    refine iff_of_true (.inl ⟨rfl, fun k hk => hnone k (hinside k hk).2⟩) fun j hj hreach hend _ => ?_
    rw [hnone _ (cluster_inside hbits.1 hsector (lt_nbNeeded_iff.mpr ⟨hreach, hend⟩)).1]
    decide
  have hneeded : 0 * s.clusterSectors < s.nbNeeded offset num := by
    rw [zero_mul, lt_nbNeeded_iff]
    omega
  have hfirst : s.entryOf (offset / 512) = table first := by
    have := entryOf_cluster hbits hsector hentry hneeded
    rwa [zero_mul, add_zero, add_zero] at this
  by_cases hempty : table first = 0
  · -- an entry with the stride from 0 is too small to be compressed
    refine iff_of_true (sectors_of_free hbits hsector hnum hentry hempty) fun j hj hreach hend hstride => ?_
    have hinside := (cluster_inside hbits.1 hsector (lt_nbNeeded_iff.mpr ⟨hreach, hend⟩)).1
    have hle := l1Sectors_le hbits.2
    rw [compressed_iff, hstride j le_rfl, hfirst, hempty, show clear 0 = 0 from rfl, two_pow_clusterBits hbits.1,
      show j * (512 * s.clusterSectors) = 512 * (j * s.clusterSectors) by ring]
    omega
  · rw [hfirst] at hflag
    have hclear : clear (table first) ≠ 0 := fun hzero => hempty ((eq_zero_iff _).mpr ⟨hzero, hflag⟩)
    rw [plain_iff hbits hsector hentry hfirst hclear]
    refine sectors_iff hbits hsector hnum hentry (count_pos ((lt_sizeToClusters_iff hbits.1).mpr hneeded) hflag)
      (fun i hi => ?_) (fun i hi => ?_) hclear hfirst
    · exact ((lt_count_iff hbits hsector hclear i).mp hi).2 i le_rfl
    · exact ((lt_count_iff hbits hsector hclear i).mp hi).1

end

/-- The offset enters with the 32 bits of its L1 index only. -/
theorem getClusterOffset_cut (hbits : 9 ≤ s.clusterBits) (offset num : Nat) :
    s.getClusterOffset (offset % (2 ^ s.l1Bits * 2 ^ 32)) num = s.getClusterOffset offset num := by
  have hsplit : 2 ^ s.l1Bits * 2 ^ 32 = 512 * (s.clusterSectors * (s.l2Size * 2 ^ 32)) := by
    rw [two_pow_l1Bits hbits, l1Sectors]
    ring
  have hindex : s.indexInCluster (offset % (2 ^ s.l1Bits * 2 ^ 32)) = s.indexInCluster offset := by
    rw [indexInCluster_eq, indexInCluster_eq, hsplit, mod_mul_right_div_self, mod_mul_right_mod]
  have hl2 : s.l2Index (offset % (2 ^ s.l1Bits * 2 ^ 32)) = s.l2Index offset := by
    rw [l2Index_eq hbits, l2Index_eq hbits, hsplit, mod_mul_right_div_self, mod_mul_right_div_self, mod_mul_right_mod]
  have hl1 : offset % (2 ^ s.l1Bits * 2 ^ 32) / 2 ^ s.l1Bits % 2 ^ 32 = offset / 2 ^ s.l1Bits % 2 ^ 32 := by
    rw [mod_mul_right_div_self, mod_mod]
  simp only [getClusterOffset, out, nbNeeded, nbAvailable, and_two_pow_sub_one_eq_mod, shiftRight_eq_div_pow, hindex, hl2, hl1,
    mod_mul_right_mod]

end Run

/-- The run that is returned is right exactly if the offset, the number of sectors and the tables meet
the condition. -/
theorem getClusterOffset_right_iff (s : Image) (offset num : Nat) (hbits : 9 ≤ s.clusterBits ∧ s.clusterBits ≤ 21)
    (hsize : s.l1Size ≤ 2 ^ 32) (hnum : 1 ≤ num) (run : Int × Nat) (h : s.getClusterOffset offset num = some run) :
    s.RunRight offset num run ↔ s.Meets offset num := by
  by_cases hindex : offset / 2 ^ s.l1Bits < 2 ^ 32
  · constructor
    · rintro ⟨hone, -, hright⟩
      obtain ⟨hsector, hflag⟩ := (one_le_run_iff hbits hindex h hnum).mp hone
      exact ⟨hsector, fun hlarge => absurd hindex (not_lt.mpr hlarge), hflag,
        (sectorsRight_iff hbits hindex h hnum hsector hflag).mp hright⟩
    · rintro ⟨hsector, -, hflag, hplain⟩
      refine ⟨(one_le_run_iff hbits hindex h hnum).mpr ⟨hsector, hflag⟩, ?_,
        (sectorsRight_iff hbits hindex h hnum hsector hflag).mpr hplain⟩
      obtain ⟨rfl, -⟩ | ⟨table, first, -, rfl⟩ := exists_table hbits hindex h
      · exact out_le ..
      · exact out_le ..
  -- behind the L1 table nothing is allocated, and the code looks elsewhere
  have hnone : ∀ k, s.entryOf (offset / 512 + k) = 0 := by
    intro k
    rw [two_pow_l1Bits hbits.1, ← Nat.div_div_eq_div_mul] at hindex
    have hle := Nat.div_le_div_right (c := s.l1Sectors) (Nat.le_add_right (offset / 512) k)
    rw [entryOf, if_neg fun hl1 => absurd hl1.1 (by omega)]
  have hcut : offset % (2 ^ s.l1Bits * 2 ^ 32) / 2 ^ s.l1Bits < 2 ^ 32 := by
    rw [mod_mul_right_div_self]
    exact mod_lt _ (by decide)
  rw [← getClusterOffset_cut hbits.1] at h
  have hone := one_le_run_iff hbits hcut h hnum
  have hsnd := run_snd hbits hcut h
  rw [mod_mul_right_mod] at hone
  have hfree : 1 ≤ run.1 ∧ s.SectorsRight offset run ↔ offset % 2 ^ s.l1Bits + 512 ≤ 2 ^ s.l1Bits ∧
      s.entryOf (offset % (2 ^ s.l1Bits * 2 ^ 32) / 512) = 0 := by
    have hsectors : 1 ≤ run.1 → (s.SectorsRight offset run ↔ run.2 = 0) := by
      refine fun hrun => ⟨?_, fun hzero => .inl ⟨hzero, fun k _ => hnone k⟩⟩
      rintro (⟨hzero, -⟩ | hplain | ⟨hcomp, -⟩)
      · exact hzero
      · exact absurd (hnone 0) (hplain 0 (by omega)).1
      · rw [← add_zero (offset / 512), hnone] at hcomp
        exact absurd hcomp (by decide)
    rw [and_congr_right hsectors, hone, eq_zero_iff, ← hsnd]
    exact ⟨fun ⟨⟨hsector, hflag⟩, hzero⟩ => ⟨hsector, hzero, hflag⟩, fun ⟨hsector, hzero, hflag⟩ => ⟨⟨hsector, hflag⟩, hzero⟩⟩
  constructor
  · rintro ⟨hrun, -, hright⟩
    obtain ⟨hsector, hzero⟩ := hfree.mp ⟨hrun, hright⟩
    refine ⟨hsector, fun _ => hzero, ?_, fun j _ _ _ _ => ?_⟩
    · rw [← add_zero (offset / 512), hnone]
      decide
    · rw [hnone]
      decide
  · rintro ⟨hsector, hzero, -, -⟩
    obtain ⟨hrun, hright⟩ := hfree.mpr ⟨hsector, hzero (not_lt.mp hindex)⟩
    refine ⟨hrun, ?_, hright⟩
    obtain ⟨rfl, -⟩ | ⟨table, first, -, rfl⟩ := exists_table hbits hcut h
    · exact out_le ..
    · exact out_le ..

def oneTable (entries : List UInt64) : Image := ⟨9, 1, fun _ => 512, fun _ => some fun i => entries.getD i 0⟩

/-- Two clusters one behind the other. -/
theorem twoClusters_right : (oneTable [1024, 1536]).RunRight 0 2 (2, 1024) := by
  refine (getClusterOffset_right_iff _ 0 2 ⟨by decide, by decide⟩ (by decide) (by decide) _ (by decide)).mpr
    ⟨by decide, fun h => absurd h (by decide), by decide, fun j hj hreach _ _ => ?_⟩
  obtain rfl : j = 1 := by
    have : j * 1 < 0 + 2 := hreach
    omega
  decide

/-- A compressed cluster whose entry is followed by one that is a cluster larger is taken for a run
of two, and for an entry that is only the flag there is no sector at all. -/
theorem getClusterOffset_wrong :
    (∃ run, (oneTable [4611686018427388004, 4611686018427388516]).getClusterOffset 0 2 = some run ∧
      ¬ (oneTable [4611686018427388004, 4611686018427388516]).RunRight 0 2 run) ∧
    ∃ run, (oneTable [9223372036854775808]).getClusterOffset 0 1 = some run ∧
      ¬ (oneTable [9223372036854775808]).RunRight 0 1 run := by
  refine ⟨⟨(2, 4611686018427388004), by decide, ?_⟩, (0, 0), by decide, fun h => absurd h.1 (by decide)⟩
  rintro ⟨-, -, ⟨hzero, -⟩ | hplain | ⟨-, -, hinside⟩⟩
  · exact absurd hzero (by decide)
  · exact (hplain 0 (by decide)).2.1 (by decide)
  · exact absurd hinside (by decide)

end GemDroid.Qcow2.ClusterRun
