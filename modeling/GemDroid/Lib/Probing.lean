import Mathlib.Data.Finset.Card
import Mathlib.Data.Nat.ModEq
import Mathlib.Data.Nat.Prime.Basic
import Mathlib.Tactic.Ring

/-! Open addressing.

Elements are kept in `N` slots. Each has a path, an order in which the slots are tried
for it; `unused` and `tomb` mark slots that hold none, and one that was emptied is marked
`tomb`, since a search ends at a slot that was never used. `Holds` says that the slots
hold the elements of a set, each where a search finds it. -/
namespace GemDroid.Lib.Probing
open Function List Nat

variable {i j N : Nat} {path : Nat → Nat}

variable {α : Type} [DecidableEq α]

variable {items : Nat → α} {unused tomb x : α}

/-- An element and not one of the two marks. -/
def Valid (unused tomb x : α) : Prop := x ≠ unused ∧ x ≠ tomb

instance (unused tomb x : α) : Decidable (Valid unused tomb x) := inferInstanceAs (Decidable (_ ∧ _))

def saw (tomb : α) (items : Nat → α) (p : Nat) (seen : Option Nat) : Option Nat :=
  if items p = tomb ∧ seen = none then some p else seen

/-- The search for `x` from the place `i` of its path on, with `left` places behind it: the
slot of `x`, or one to put it into. -/
def probe (unused tomb : α) (items : Nat → α) (path : Nat → Nat) (x : α) : Nat → Nat → Option Nat → Nat
  | left, i, seen =>
    if items (path i) = x then path i
    else if items (path i) = unused then seen.getD (path i)
    else
      match left with
      | 0 => (saw tomb items (path i) seen).getD (path i)
      | left + 1 => probe unused tomb items path x left (i + 1) (saw tomb items (path i) seen)

section Search
variable {left : Nat} {seen : Option Nat}

theorem probe_eq_of_ne (hx : items (path i) ≠ x) (hu : items (path i) ≠ unused) :
    probe unused tomb items path x (left + 1) i seen =
      probe unused tomb items path x left (i + 1) (saw tomb items (path i) seen) := by
  rw [probe, if_neg hx, if_neg hu]

theorem probe_unused (hx : items (path i) ≠ x) (hu : items (path i) = unused) :
    probe unused tomb items path x left i seen = seen.getD (path i) := by
  cases left <;> rw [probe, if_neg hx, if_pos hu]

/-- An element that is met before an unused slot is found. -/
theorem probe_found (hij : i ≤ j) (hj : j ≤ i + left) (hx : items (path j) = x)
    (hbefore : ∀ k, i ≤ k → k < j → items (path k) ≠ x ∧ items (path k) ≠ unused) :
    probe unused tomb items path x left i seen = path j := by
  induction left generalizing i seen with
  | zero =>
    obtain rfl : i = j := by omega
    rw [probe, if_pos hx]
  | succ left ih =>
    obtain rfl | hlt := eq_or_lt_of_le hij
    · rw [probe, if_pos hx]
    · obtain ⟨hne, hused⟩ := hbefore i le_rfl hlt
      rw [probe_eq_of_ne hne hused]
      exact ih hlt (by omega) fun k hk => hbefore k (by omega)

/-- The place `m` of a path is free, and no slot before it is unused. -/
structure Free (unused tomb : α) (items : Nat → α) (path : Nat → Nat) (m : Nat) : Prop where
  free : ¬ Valid unused tomb (items (path m))
  before : ∀ k < m, items (path k) ≠ unused

structure Seen (tomb : α) (items : Nat → α) (path : Nat → Nat) (i : Nat) (seen : Option Nat) : Prop where
  some : ∀ p, seen = some p → ∃ m < i, p = path m ∧ items p = tomb
  none : seen = none → ∀ k < i, items (path k) ≠ tomb

theorem Seen.saw (h : Seen tomb items path i seen) : Seen tomb items path (i + 1) (saw tomb items (path i) seen) := by
  rw [Probing.saw]
  split
  · rename_i hnew
    refine ⟨fun p hp => ⟨i, by omega, (Option.some.inj hp).symm, ?_⟩, nofun⟩
    rw [← Option.some.inj hp]
    exact hnew.1
  rename_i hold
  constructor
  · intro p hp
    obtain ⟨m, hm, hpath⟩ := h.some p hp
    exact ⟨m, by omega, hpath⟩
  · intro hnone k hk
    obtain hk | rfl : k < i ∨ k = i := by omega
    · exact h.none hnone k hk
    · exact fun htomb => hold ⟨htomb, hnone⟩

omit [DecidableEq α] in
theorem Seen.free (h : Seen tomb items path i seen) (hbefore : ∀ k < i, items (path k) ≠ unused) {p : Nat}
    (hp : seen = Option.some p) : ∃ m < i, p = path m ∧ Free unused tomb items path m := by
  obtain ⟨m, hm, hpath, htomb⟩ := h.some p hp
  refine ⟨m, hm, hpath, ?_, fun k hk => hbefore k (by omega)⟩
  rw [← hpath, htomb]
  exact fun hvalid => hvalid.2 rfl

/-- The search ends at an unused slot: the slot or a tombstone before it is free. -/
theorem probe_unused_free (left : Nat) (hx : items (path i) ≠ x) (hu : items (path i) = unused)
    (hbefore : ∀ k < i, items (path k) ≠ unused) (hseen : Seen tomb items path i seen) :
    ∃ m ≤ i, probe unused tomb items path x left i seen = path m ∧ Free unused tomb items path m := by
  rw [probe_unused hx hu]
  cases hs : seen with
  | none =>
    refine ⟨i, le_rfl, rfl, ?_, hbefore⟩
    rw [hu]
    exact fun hvalid => hvalid.1 rfl
  | some p =>
    obtain ⟨m, hm, hpath, hfree⟩ := hseen.free hbefore hs
    exact ⟨m, hm.le, hpath, hfree⟩

/-- A search for what is not there ends at a free place, unless all slots are taken. -/
theorem probe_absent (unused : α) (habsent : ∀ k, i ≤ k → k ≤ i + left → items (path k) ≠ x)
    (hbefore : ∀ k < i, items (path k) ≠ unused) (hseen : Seen tomb items path i seen) :
    (∃ m ≤ i + left, probe unused tomb items path x left i seen = path m ∧ Free unused tomb items path m) ∨
      (∀ k ≤ i + left, Valid unused tomb (items (path k))) ∧
        probe unused tomb items path x left i seen = path (i + left) := by
  have hstep : ∀ {i : Nat}, (∀ k < i, items (path k) ≠ unused) → items (path i) ≠ unused →
      ∀ k < i + 1, items (path k) ≠ unused := by
    intro i hbefore hu k hk
    obtain hk | rfl : k < i ∨ k = i := by omega
    · exact hbefore k hk
    · exact hu
  induction left generalizing i seen with
  | zero =>
    by_cases hu : items (path i) = unused
    · exact .inl (probe_unused_free 0 (habsent i le_rfl le_rfl) hu hbefore hseen)
    rw [probe, if_neg (habsent i le_rfl le_rfl), if_neg hu]
    cases hs : saw tomb items (path i) seen with
    | none => exact .inr ⟨fun k hk => ⟨hstep hbefore hu k (by omega), hseen.saw.none hs k (by omega)⟩, rfl⟩
    | some p =>
      obtain ⟨m, hm, hpath, hfree⟩ := hseen.saw.free (hstep hbefore hu) hs
      exact .inl ⟨m, by omega, hpath, hfree⟩
  | succ left ih =>
    have hx := habsent i le_rfl (by omega)
    by_cases hu : items (path i) = unused
    · obtain ⟨m, hm, hfree⟩ := probe_unused_free (left + 1) hx hu hbefore hseen
      exact .inl ⟨m, by omega, hfree⟩
    · rw [probe_eq_of_ne hx hu, show i + (left + 1) = i + 1 + left by omega]
      exact ih (fun k hk hk' => habsent k (by omega) (by omega)) (hstep hbefore hu) hseen.saw

end Search

/-! ### Paths -/

/-- A path comes by every slot once. -/
structure Covers (N : Nat) (path : Nat → Nat) : Prop where
  lt : ∀ i < N, path i < N
  inj : ∀ i < N, ∀ j < N, path i = path j → i = j
  onto : ∀ n < N, ∃ i < N, path i = n

theorem Covers.of_inj (lt : ∀ i < N, path i < N)
    (inj : ∀ i < N, ∀ j < N, path i = path j → i = j) : Covers N path := by
  refine ⟨lt, inj, fun n hn => ?_⟩
  have hcard : ((Finset.range N).image path).card = N := by
    rw [Finset.card_image_of_injOn, Finset.card_range]
    intro i hi j hj heq
    exact inj i (by simpa using hi) j (by simpa using hj) heq
  have hsub : (Finset.range N).image path ⊆ Finset.range N := by
    intro n hn
    obtain ⟨i, hi, rfl⟩ := Finset.mem_image.mp hn
    exact Finset.mem_range.mpr (lt i (Finset.mem_range.mp hi))
  have himage := Finset.eq_of_subset_of_card_le hsub (by rw [hcard, Finset.card_range])
  have hmem : n ∈ (Finset.range N).image path := by
    rw [himage]
    exact Finset.mem_range.mpr hn
  obtain ⟨i, hi, hpath⟩ := Finset.mem_image.mp hmem
  exact ⟨i, Finset.mem_range.mp hi, hpath⟩

def triangle (i : Nat) : Nat := i * (i + 1) / 2

theorem two_mul_triangle (i : Nat) : 2 * triangle i = i * (i + 1) :=
  Nat.mul_div_cancel' (Nat.even_mul_succ_self i).two_dvd

theorem triangle_succ (i : Nat) : triangle (i + 1) = triangle i + (i + 1) := by
  have h := two_mul_triangle i
  have h' := two_mul_triangle (i + 1)
  have hring : (i + 1) * (i + 1 + 1) = i * (i + 1) + 2 * (i + 1) := by ring
  omega

/-- Triangular numbers below a power of two differ modulo it: of the two factors of
`2 * (triangle (i + d) - triangle i) = d * (2 * i + d + 1)` one is odd and the other is too
small. -/
theorem triangle_mod_inj {s d : Nat} (hd : 0 < d) (hlt : i + d < 2 ^ s) :
    ¬ 2 ^ s ∣ triangle (i + d) - triangle i := by
  intro hdvd
  have hprod : 2 * (triangle (i + d) - triangle i) = d * (2 * i + d + 1) := by
    have h := two_mul_triangle i
    have h' := two_mul_triangle (i + d)
    have hring : (i + d) * (i + d + 1) = i * (i + 1) + d * (2 * i + d + 1) := by ring
    omega
  have hdvd' : 2 ^ (s + 1) ∣ d * (2 * i + d + 1) := by
    rw [← hprod, pow_succ, mul_comm]
    exact mul_dvd_mul_left 2 hdvd
  obtain heven | hodd := even_or_odd d
  · have hcop : Nat.Coprime (2 ^ (s + 1)) (2 * i + d + 1) := by
      apply Nat.Coprime.pow_left
      rw [coprime_two_left]
      obtain ⟨e, rfl⟩ := heven
      exact ⟨i + e, by omega⟩
    have hle := le_of_dvd hd (hcop.dvd_of_dvd_mul_right hdvd')
    omega
  · have hcop : Nat.Coprime (2 ^ (s + 1)) d := Nat.Coprime.pow_left _ (coprime_two_left.mpr hodd)
    have hle := le_of_dvd (by omega) (hcop.dvd_of_dvd_mul_left hdvd')
    omega

theorem triangle_mono (h : i ≤ j) : triangle i ≤ triangle j := by
  induction h with
  | refl => exact le_rfl
  | step _ ih =>
    rw [succ_eq_add_one, triangle_succ]
    omega

/-- Growing steps around a power of two come by every slot. -/
theorem triangular_covers (s start : Nat) : Covers (2 ^ s) fun i => (start + triangle i) % 2 ^ s := by
  have hpos : 0 < 2 ^ s := Nat.two_pow_pos s
  have hdiff : ∀ i j, i < j → j < 2 ^ s → (start + triangle i) % 2 ^ s ≠ (start + triangle j) % 2 ^ s := by
    intro i j hij hj heq
    obtain ⟨d, rfl⟩ := Nat.exists_eq_add_of_lt hij
    have hmod : triangle i ≡ triangle (i + (d + 1)) [MOD 2 ^ s] := Nat.ModEq.add_left_cancel' start heq
    exact triangle_mod_inj (succ_pos d) hj ((modEq_iff_dvd' (triangle_mono (by omega))).mp hmod)
  apply Covers.of_inj
  · intro i _
    exact mod_lt _ hpos
  · intro i hi j hj heq
    obtain hlt | heq' | hlt := lt_trichotomy i j
    · exact absurd heq (hdiff i j hlt hj)
    · exact heq'
    · exact absurd heq.symm (hdiff j i hlt hi)

/-! ### Tables -/

/-- The slots hold the elements of `S`, each once and where a search finds it. -/
structure Holds (unused tomb : α) (N : Nat) (path : α → Nat → Nat) (items : Nat → α) (S : Finset α) : Prop where
  mem : ∀ x, x ∈ S ↔ Valid unused tomb x ∧ ∃ n < N, items n = x
  unique : ∀ n < N, ∀ m < N, Valid unused tomb (items n) → items n = items m → n = m
  reached : ∀ x ∈ S, ∃ j < N, items (path x j) = x ∧ ∀ i < j, items (path x i) ≠ unused

section Table
variable {path : α → Nat → Nat} {S : Finset α}

omit [DecidableEq α] in
theorem Holds.empty (hitems : ∀ n < N, items n = unused) : Holds unused tomb N path items ∅ := by
  refine ⟨fun x => ?_, fun n hn m _ hvalid => absurd (hitems n hn) hvalid.1, nofun⟩
  apply iff_of_false (Finset.notMem_empty x)
  intro ⟨hvalid, n, hn, hx⟩
  exact hvalid.1 (hx.symm.trans (hitems n hn))

theorem Holds.card_le (h : Holds unused tomb N path items S) : S.card ≤ N := by
  have hsub : S ⊆ (Finset.range N).image items := by
    intro x hx
    obtain ⟨-, n, hn, hitem⟩ := (h.mem x).mp hx
    exact Finset.mem_image.mpr ⟨n, Finset.mem_range.mpr hn, hitem⟩
  calc S.card ≤ ((Finset.range N).image items).card := Finset.card_le_card hsub
    _ ≤ (Finset.range N).card := Finset.card_image_le
    _ = N := Finset.card_range N

/-- A table with a free slot is not full. -/
theorem Holds.card_lt (h : Holds unused tomb N path items S) {n : Nat} (hn : n < N)
    (hfree : ¬ Valid unused tomb (items n)) : S.card < N := by
  have hsub : S ⊆ ((Finset.range N).erase n).image items := by
    intro x hx
    obtain ⟨hvalid, m, hm, rfl⟩ := (h.mem x).mp hx
    have hmn : m ≠ n := fun heq => hfree (heq ▸ hvalid)
    exact Finset.mem_image_of_mem _ (Finset.mem_erase.mpr ⟨hmn, Finset.mem_range.mpr hm⟩)
  have hcard := (Finset.card_le_card hsub).trans Finset.card_image_le
  rw [Finset.card_erase_of_mem (Finset.mem_range.mpr hn), Finset.card_range] at hcard
  omega

theorem Holds.le_card (h : Holds unused tomb N path items S) (hfull : ∀ n < N, Valid unused tomb (items n)) :
    N ≤ S.card := by
  have hsub : (Finset.range N).image items ⊆ S := by
    intro x hx
    obtain ⟨n, hn, rfl⟩ := Finset.mem_image.mp hx
    have hlt := Finset.mem_range.mp hn
    exact (h.mem _).mpr ⟨hfull n hlt, n, hlt, rfl⟩
  have hcard : ((Finset.range N).image items).card = N := by
    rw [Finset.card_image_of_injOn, Finset.card_range]
    intro n hn m hm heq
    have hn' : n < N := by simpa using hn
    exact h.unique n hn' m (by simpa using hm) (hfull n hn') heq
  exact hcard ▸ Finset.card_le_card hsub

omit [DecidableEq α] in
theorem update_ne {y : α} (hx : x ≠ y) (hi : items i ≠ y) : update items j x i ≠ y := by
  rw [update_apply]
  split
  · exact hx
  · exact hi

/-- The search through a whole table. -/
def find (unused tomb : α) (N : Nat) (path : α → Nat → Nat) (items : Nat → α) (x : α) : Nat :=
  probe unused tomb items (path x) x (N - 1) 0 none

section
variable (h : Holds unused tomb N path items S)
include h

theorem Holds.find_mem (hpath : Covers N (path x)) (hx : x ∈ S) :
    find unused tomb N path items x < N ∧ items (find unused tomb N path items x) = x := by
  obtain ⟨j, hj, hitem, hbefore⟩ := h.reached x hx
  have hvalid := ((h.mem x).mp hx).1
  have hfind : find unused tomb N path items x = path x j := by
    apply probe_found (zero_le j) (by omega) hitem
    intro k _ hk
    refine ⟨fun heq => ?_, hbefore k hk⟩
    have hsame := h.unique _ (hpath.lt j hj) _ (hpath.lt k (by omega)) (hitem.symm ▸ hvalid) (hitem.trans heq.symm)
    have := hpath.inj j hj k (by omega) hsame
    omega
  rw [hfind]
  exact ⟨hpath.lt j hj, hitem⟩

/-- A search for what is not in the set finds a free place or a full table. -/
theorem Holds.find_absent (hpath : Covers N (path x)) (hN : 0 < N) (hvalid : Valid unused tomb x) (hx : x ∉ S) :
    S.card < N ∧ (∃ m < N, find unused tomb N path items x = path x m ∧ Free unused tomb items (path x) m) ∨
      S.card = N ∧ find unused tomb N path items x < N ∧
        Valid unused tomb (items (find unused tomb N path items x)) := by
  have habsent : ∀ k, 0 ≤ k → k ≤ 0 + (N - 1) → items (path x k) ≠ x := by
    intro k _ hk heq
    exact hx ((h.mem x).mpr ⟨hvalid, path x k, hpath.lt k (by omega), heq⟩)
  have hseen : Seen tomb items (path x) 0 none := ⟨nofun, fun _ k hk => absurd hk (by omega)⟩
  obtain ⟨m, hm, hfind, hfree⟩ | ⟨hfull, hfind⟩ :=
    probe_absent unused habsent (fun k hk => absurd hk (by omega)) hseen
  · exact .inl ⟨h.card_lt (hpath.lt m (by omega)) hfree.free, m, by omega, hfind, hfree⟩
  · right
    have hfull' : ∀ n < N, Valid unused tomb (items n) := by
      intro n hn
      obtain ⟨i, hi, rfl⟩ := hpath.onto n hn
      exact hfull i (by omega)
    rw [find, hfind]
    exact ⟨le_antisymm h.card_le (h.le_card hfull'), hpath.lt _ (by omega), hfull _ le_rfl⟩

/-- An element is put at a free place of its path. -/
theorem Holds.insert (hvalid : Valid unused tomb x) (hx : x ∉ S) {m : Nat}
    (hm : m < N) (hpath : Covers N (path x)) (hfree : Free unused tomb items (path x) m) :
    Holds unused tomb N path (update items (path x m) x) (Insert.insert x S) := by
  have hkeep : ∀ n, Valid unused tomb (items n) → n ≠ path x m := fun n hn heq => hfree.free (heq ▸ hn)
  refine ⟨fun y => ?_, fun n hn k hk => ?_, fun y hy => ?_⟩
  · rw [Finset.mem_insert]
    constructor
    · intro hy
      obtain rfl | hy := hy
      · exact ⟨hvalid, path y m, hpath.lt m hm, update_self _ _ _⟩
      · obtain ⟨hyvalid, n, hn, rfl⟩ := (h.mem y).mp hy
        exact ⟨hyvalid, n, hn, update_of_ne (hkeep n hyvalid) _ _⟩
    · intro ⟨hyvalid, n, hn, hitem⟩
      rw [update_apply] at hitem
      split at hitem
      · exact .inl hitem.symm
      · exact .inr ((h.mem y).mpr ⟨hyvalid, n, hn, hitem⟩)
  · rw [update_apply, update_apply]
    split
    · rename_i hnm
      split
      · rename_i hkm
        exact fun _ _ => hnm.trans hkm.symm
      · intro _ heq
        exact absurd ((h.mem x).mpr ⟨hvalid, k, hk, heq.symm⟩) hx
    · split
      · intro _ heq
        exact absurd ((h.mem x).mpr ⟨hvalid, n, hn, heq⟩) hx
      · exact h.unique n hn k hk
  · obtain rfl | hy := Finset.mem_insert.mp hy
    · exact ⟨m, hm, update_self _ _ _, fun i hi => update_ne hvalid.1 (hfree.before i hi)⟩
    · obtain ⟨j, hj, hitem, hbefore⟩ := h.reached y hy
      have hyvalid := ((h.mem y).mp hy).1
      refine ⟨j, hj, ?_, fun i hi => update_ne hvalid.1 (hbefore i hi)⟩
      rw [update_of_ne (hkeep _ (hitem.symm ▸ hyvalid)), hitem]

theorem Holds.erase (htomb : tomb ≠ unused) {n : Nat} (hn : n < N) (hx : items n = x) :
    Holds unused tomb N path (update items n tomb) (S.erase x) := by
  refine ⟨fun y => ?_, fun k hk l hl => ?_, fun y hy => ?_⟩
  · rw [Finset.mem_erase, h.mem]
    constructor
    · intro ⟨hne, hyvalid, k, hk, hitem⟩
      have hkn : k ≠ n := fun heq => hne (hitem.symm.trans (heq ▸ hx))
      exact ⟨hyvalid, k, hk, (update_of_ne hkn _ _).trans hitem⟩
    · intro ⟨hyvalid, k, hk, hitem⟩
      rw [update_apply] at hitem
      split at hitem
      · exact absurd hitem.symm hyvalid.2
      · rename_i hkn
        refine ⟨fun heq => hkn ?_, hyvalid, k, hk, hitem⟩
        exact h.unique k hk n hn (hitem.symm ▸ hyvalid) (by rw [hitem, heq, hx])
  · rw [update_apply, update_apply]
    split
    · exact fun hv => absurd rfl hv.2
    · split
      · exact fun hv heq => absurd heq hv.2
      · exact h.unique k hk l hl
  · obtain ⟨hne, hy⟩ := Finset.mem_erase.mp hy
    obtain ⟨j, hj, hitem, hbefore⟩ := h.reached y hy
    refine ⟨j, hj, ?_, fun i hi => update_ne htomb (hbefore i hi)⟩
    have hjn : path y j ≠ n := fun heq => hne (hitem.symm.trans (heq ▸ hx))
    rw [update_of_ne hjn, hitem]

end

/-! ### The elements -/

def elements (unused tomb : α) (N : Nat) (items : Nat → α) : List α :=
  ((List.range N).map items).filter fun x => decide (Valid unused tomb x)

section
variable (h : Holds unused tomb N path items S)
include h

theorem Holds.mem_elements : x ∈ elements unused tomb N items ↔ x ∈ S := by
  rw [elements, mem_filter, mem_map, h.mem, decide_eq_true_iff]
  constructor
  · intro ⟨⟨n, hn, hx⟩, hvalid⟩
    exact ⟨hvalid, n, mem_range.mp hn, hx⟩
  · intro ⟨hvalid, n, hn, hx⟩
    exact ⟨⟨n, mem_range.mpr hn, hx⟩, hvalid⟩

theorem Holds.nodup_elements : (elements unused tomb N items).Nodup := by
  rw [elements, filter_map]
  apply List.Nodup.map_on
  · intro n hn m hm heq
    obtain ⟨hn, hvalid⟩ := mem_filter.mp hn
    obtain ⟨hm, -⟩ := mem_filter.mp hm
    exact h.unique n (mem_range.mp hn) m (mem_range.mp hm) (by simpa using hvalid) heq
  · exact nodup_range.filter _

theorem Holds.toFinset_elements : (elements unused tomb N items).toFinset = S := by
  ext x
  rw [mem_toFinset, h.mem_elements]

theorem Holds.length_elements : (elements unused tomb N items).length = S.card := by
  rw [← toFinset_card_of_nodup h.nodup_elements, h.toFinset_elements]

end

/-- Elements are put into a table, each where the search for it ends. -/
def fill (unused tomb : α) (N : Nat) (path : α → Nat → Nat) (items : Nat → α) (xs : List α) : Nat → α :=
  xs.foldl (fun items x => Function.update items (find unused tomb N path items x) x) items

theorem Holds.fill (xs : List α) (h : Holds unused tomb N path items S) (hpath : ∀ x, Covers N (path x))
    (hvalid : ∀ x ∈ xs, Valid unused tomb x) (hnew : ∀ x ∈ xs, x ∉ S) (hnodup : xs.Nodup)
    (hcard : S.card + xs.length ≤ N) :
    Holds unused tomb N path (fill unused tomb N path items xs) (S ∪ xs.toFinset) := by
  induction xs generalizing items S with
  | nil => simpa [Probing.fill] using h
  | cons x xs ih =>
    rw [length_cons] at hcard
    obtain ⟨hxs, hnodup'⟩ := nodup_cons.mp hnodup
    have hxvalid := hvalid x (by simp)
    have hxnew := hnew x (by simp)
    obtain ⟨-, m, hm, hfind, hfree⟩ | ⟨hfull, -⟩ := h.find_absent (hpath x) (by omega) hxvalid hxnew
    · have hins := h.insert hxvalid hxnew hm (hpath x) hfree
      have hrest := ih hins (fun y hy => hvalid y (by simp [hy])) (fun y hy => ?_) hnodup'
        (by rw [Finset.card_insert_of_notMem hxnew]; omega)
      · rw [toFinset_cons, Finset.union_insert, ← Finset.insert_union, Probing.fill, foldl_cons, hfind]
        exact hrest
      · rw [Finset.mem_insert, not_or]
        refine ⟨fun heq => hxs (heq ▸ hy), hnew y (by simp [hy])⟩
    · omega

end Table

end GemDroid.Lib.Probing
