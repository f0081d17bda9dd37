import GemDroid.Ram.Migration
import GemDroid.Lib.Cyclic
import GemDroid.Lib.Fallible
import Mathlib.Algebra.Order.BigOperators.Group.List
import Mathlib.Algebra.Order.Group.Nat
import Mathlib.Data.List.Pairwise

/-! The cyclic scan of the sender.

The pages of the blocks stand in a circle, and the scan goes around it from where the last one
ended. So it finds a dirty page if there is one. -/
namespace GemDroid.Ram
open Lib List Option Sender
open List hiding mem_of_getElem?

variable {pageSize x y off i : Nat} {s : Sender} {b : Block}

/-- The RAM of a machine: blocks with different names, of whole pages, that do not overlap. -/
structure Wf (pageSize : Nat) (blocks : List Block) : Prop where
  nonempty : blocks ≠ []
  names : (blocks.map Block.idstr).Nodup
  name : ∀ b ∈ blocks, b.idstr.length < 256 ∧ ∀ c ∈ b.idstr, c ≠ 0
  length : ∀ b ∈ blocks, pageSize ∣ b.length ∧ 0 < b.length
  offset : ∀ b ∈ blocks, pageSize ∣ b.offset
  ram : blocks.Pairwise fun a b => a.offset + a.length ≤ b.offset ∨ b.offset + b.length ≤ a.offset
  host : blocks.Pairwise fun a b => a.host + a.length ≤ b.host ∨ b.host + b.length ≤ a.host
  total : (blocks.map Block.length).sum + pageSize ≤ 2 ^ 64

section Wf
variable {blocks : List Block} {a : Block}

section
variable (h : Wf pageSize blocks)
include h

section
variable (ha : a ∈ blocks) (hb : b ∈ blocks)
include ha hb

theorem Wf.eq_of_name (heq : a.idstr = b.idstr) : a = b :=
  inj_on_of_nodup_map h.names ha hb heq

theorem Wf.eq_of_ram (hx : x < a.length) (hy : y < b.length) (heq : a.offset + x = b.offset + y) : a = b := by
  by_contra hne
  have hsymm : Std.Symm fun a b : Block => a.offset + a.length ≤ b.offset ∨ b.offset + b.length ≤ a.offset :=
    ⟨fun _ _ hab => hab.symm⟩
  have := h.ram.forall ha hb hne
  omega

theorem Wf.eq_of_host (hx : x < a.length) (hy : y < b.length) (heq : a.host + x = b.host + y) : a = b := by
  by_contra hne
  have hsymm : Std.Symm fun a b : Block => a.host + a.length ≤ b.host ∨ b.host + b.length ≤ a.host :=
    ⟨fun _ _ hab => hab.symm⟩
  have := h.host.forall ha hb hne
  omega

end

theorem Wf.length_le (hb : b ∈ blocks) : b.length + pageSize ≤ 2 ^ 64 := by
  have := le_sum_of_mem (mem_map_of_mem (f := Block.length) hb)
  have := h.total
  omega

theorem Wf.page_le (hb : b ∈ blocks) (ho : off < b.length) (hd : pageSize ∣ off) : off + pageSize ≤ b.length := by
  obtain ⟨l, hl⟩ := (h.length b hb).1
  obtain ⟨k, rfl⟩ := hd
  rw [hl] at ho ⊢
  rw [← Nat.mul_add_one]
  exact Nat.mul_le_mul_left _ (Nat.lt_of_mul_lt_mul_left ho)

theorem Wf.perm {blocks' : List Block} (hp : blocks.Perm blocks') : Wf pageSize blocks' where
  nonempty := fun heq => h.nonempty (List.Perm.eq_nil (heq ▸ hp))
  names := (hp.map _).nodup_iff.mp h.names
  name := fun b hb => h.name b (hp.symm.subset hb)
  length := fun b hb => h.length b (hp.symm.subset hb)
  offset := fun b hb => h.offset b (hp.symm.subset hb)
  ram := (hp.pairwise_iff fun hab => hab.symm).mp h.ram
  host := (hp.pairwise_iff fun hab => hab.symm).mp h.host
  total := (hp.map Block.length).sum_eq ▸ h.total

end

end Wf

/-! ### Positions -/

section Positions
variable {p q : Nat × Nat}

def Valid (pageSize : Nat) (s : Sender) (p : Nat × Nat) : Prop :=
  ∃ b, s.blocks[p.1]? = some b ∧ p.2 < b.length ∧ pageSize ∣ p.2

def position (pageSize : Nat) (s : Sender) (p : Nat × Nat) : Nat :=
  ((s.blocks.take p.1).map fun b => b.length / pageSize).sum + p.2 / pageSize

theorem sum_take_succ (pageSize : Nat) (hb : s.blocks[i]? = some b) :
    ((s.blocks.take (i + 1)).map fun b => b.length / pageSize).sum =
      ((s.blocks.take i).map fun b => b.length / pageSize).sum + b.length / pageSize := by
  rw [take_add_one, hb]
  simp

theorem sum_take_le (pageSize : Nat) (s : Sender) {j : Nat} (h : i ≤ j) :
    ((s.blocks.take i).map fun b => b.length / pageSize).sum ≤
      ((s.blocks.take j).map fun b => b.length / pageSize).sum := by
  obtain ⟨k, rfl⟩ := Nat.exists_eq_add_of_le h
  rw [take_add, map_append, sum_append]
  omega

theorem page_lt (hw : Wf pageSize s.blocks) (hb : b ∈ s.blocks) (hsize : 0 < pageSize)
    (ho : off < b.length) : off / pageSize < b.length / pageSize := by
  obtain ⟨k, hk⟩ := (hw.length b hb).1
  rw [hk, Nat.mul_div_cancel_left _ hsize, Nat.div_lt_iff_lt_mul hsize, mul_comm]
  omega

theorem mem_of_getElem? (h : s.blocks[i]? = some b) : b ∈ s.blocks :=
  List.mem_of_getElem? h

section
variable (hw : Wf pageSize s.blocks)
include hw

theorem advance_valid (hb : s.blocks[p.1]? = some b)
    (hd : pageSize ∣ p.2) : Valid pageSize s (s.advance pageSize p) := by
  have hfirst : ∀ i < s.blocks.length, Valid pageSize s (i, 0) := by
    intro i hi
    have hget := getElem?_eq_getElem hi
    exact ⟨_, hget, (hw.length _ (mem_of_getElem? hget)).2, Nat.dvd_zero _⟩
  unfold advance
  rw [hb]
  dsimp only
  split
  · apply hfirst
    have := (List.getElem?_eq_some_iff.mp hb).1
    split
    · assumption
    · omega
  · exact ⟨b, hb, by omega, Nat.dvd_add hd (Nat.dvd_refl _)⟩

section
variable (hsize : 0 < pageSize)
include hsize

theorem position_lt_sum (hp : Valid pageSize s p) :
    position pageSize s p < ((s.blocks.take (p.1 + 1)).map fun b => b.length / pageSize).sum := by
  obtain ⟨b, hb, ho, -⟩ := hp
  have := page_lt hw (mem_of_getElem? hb) hsize ho
  rw [sum_take_succ pageSize hb, position]
  omega

theorem position_lt (hp : Valid pageSize s p) : position pageSize s p < s.pageCount pageSize := by
  obtain ⟨b, hb, -⟩ := id hp
  calc position pageSize s p
      < ((s.blocks.take (p.1 + 1)).map fun b => b.length / pageSize).sum := position_lt_sum hw hsize hp
    _ ≤ ((s.blocks.take s.blocks.length).map fun b => b.length / pageSize).sum :=
        sum_take_le pageSize s (List.getElem?_eq_some_iff.mp hb).1
    _ = s.pageCount pageSize := by rw [take_length]; rfl

theorem block_le_of_position (hq : Valid pageSize s q)
    (hle : position pageSize s p ≤ position pageSize s q) : p.1 ≤ q.1 := by
  by_contra hlt
  have h₁ := position_lt_sum hw hsize hq
  have h₂ := sum_take_le pageSize s (show q.1 + 1 ≤ p.1 by omega)
  have h₃ : ((s.blocks.take p.1).map fun b => b.length / pageSize).sum ≤ position pageSize s p :=
    Nat.le_add_right _ _
  omega

theorem position_inj (hp : Valid pageSize s p)
    (hq : Valid pageSize s q) (heq : position pageSize s p = position pageSize s q) : p = q := by
  have hi : p.1 = q.1 :=
    Nat.le_antisymm (block_le_of_position hw hsize hq heq.le) (block_le_of_position hw hsize hp heq.ge)
  obtain ⟨b, -, -, hd⟩ := hp
  obtain ⟨c, -, -, hd'⟩ := hq
  have hoff : p.2 / pageSize = q.2 / pageSize := by
    unfold position at heq
    rw [hi] at heq
    omega
  apply Prod.ext hi
  rw [← Nat.div_mul_cancel hd, ← Nat.div_mul_cancel hd', hoff]

theorem position_advance (hp : Valid pageSize s p) :
    position pageSize s (s.advance pageSize p) = (position pageSize s p + 1) % s.pageCount pageSize := by
  obtain ⟨b, hb, ho, hd⟩ := id hp
  have hsum := sum_take_succ pageSize hb
  have hlt := page_lt hw (mem_of_getElem? hb) hsize ho
  have hdiv : (p.2 + pageSize) / pageSize = p.2 / pageSize + 1 := Nat.add_div_right _ hsize
  have hvalid := position_lt hw hsize (advance_valid hw hb hd)
  unfold advance at hvalid ⊢
  rw [hb] at hvalid ⊢
  dsimp only at hvalid ⊢
  by_cases hend : b.length ≤ p.2 + pageSize
  · -- the last page of its block
    have hlast : p.2 / pageSize + 1 = b.length / pageSize := by
      have := Nat.div_le_div_right (c := pageSize) hend
      omega
    rw [if_pos hend] at hvalid ⊢
    by_cases hnext : p.1 + 1 < s.blocks.length
    · have hpos : position pageSize s (p.1 + 1, 0) = position pageSize s p + 1 := by
        simp only [position, Nat.zero_div]
        omega
      rw [if_pos hnext] at hvalid ⊢
      rw [← hpos, Nat.mod_eq_of_lt hvalid]
    have hall : position pageSize s p + 1 = s.pageCount pageSize := by
      have hlen := (List.getElem?_eq_some_iff.mp hb).1
      have htake : s.blocks.take (p.1 + 1) = s.blocks := take_of_length_le (by omega)
      rw [htake] at hsum
      show position pageSize s p + 1 = (s.blocks.map fun b => b.length / pageSize).sum
      rw [hsum, position]
      omega
    rw [if_neg hnext, hall, Nat.mod_self]
    simp [position]
  · have hpos : position pageSize s (p.1, p.2 + pageSize) = position pageSize s p + 1 := by
      simp only [position, hdiv]
      omega
    rw [if_neg hend] at hvalid ⊢
    rw [← hpos, Nat.mod_eq_of_lt hvalid]

theorem cyclic : Cyclic (s.pageCount pageSize) (Valid pageSize s) (s.advance pageSize) (position pageSize s) := by
  constructor
  · exact fun p hp => position_lt hw hsize hp
  · exact fun p q hp hq => position_inj hw hsize hp hq
  · intro p ⟨b, hb, _, hd⟩
    exact advance_valid hw hb hd
  · exact fun p hp => position_advance hw hsize hp

end

theorem eq_of_address (hp : Valid pageSize s p) (hq : Valid pageSize s q)
    (heq : s.address p = s.address q) : p = q := by
  obtain ⟨b, hb, ho, -⟩ := hp
  obtain ⟨c, hc, ho', -⟩ := hq
  simp only [address, hb, hc, map_some, some.injEq] at heq
  have hbc := hw.eq_of_ram (mem_of_getElem? hb) (mem_of_getElem? hc) ho ho' heq
  subst hbc
  have hlt := (List.getElem?_eq_some_iff.mp hb).1
  have hi : p.1 = q.1 := (getElem?_inj hlt (List.Nodup.of_map _ hw.names)).mp (hb.trans hc.symm)
  exact Prod.ext hi (by omega)

end

end Positions

/-! ### The scan -/

section Scan

def hit (pageSize : Nat) (s : Sender) (p : Nat × Nat) : Bool :=
  match s.address p with
  | none => false
  | some addr => s.dirty (addr / pageSize)

theorem hit_eq (hb : s.blocks[i]? = some b) : hit pageSize s (i, off) = s.dirty ((b.offset + off) / pageSize) := by
  simp [hit, address, hb]

/-- The loop of `ram_save_block` is a search around the circle. -/
theorem scan_of_search (hw : Wf pageSize s.blocks) {last : Nat} (hlast : s.lastBlock = some last)
    {r : Bool × Nat × Nat} : ∀ (fuel : Nat) (p : Nat × Nat), Valid pageSize s p →
      search (s.advance pageSize) (hit pageSize s) (fun q => decide (s.address q = s.address (last, s.lastOffset)))
        fuel p = some r → s.scan pageSize fuel p = .ok r := by
  intro fuel
  induction fuel with
  | zero =>
    intro p _ h
    cases h
  | succ fuel ih =>
    intro p hp h
    obtain ⟨b, hb, -, hd⟩ := hp
    have hnext := advance_valid hw hb hd
    have haddr : s.address p = some (b.offset + p.2) := by simp [address, hb]
    obtain ⟨c, hc, -⟩ := id hnext
    have haddr' : s.address (s.advance pageSize p) = some (c.offset + (s.advance pageSize p).2) := by
      simp [address, hc]
    rw [search, hit, haddr] at h
    rw [scan, haddr]
    dsimp only at h ⊢
    split at h
    next hdirty =>
      rw [if_pos hdirty]
      cases h
      rfl
    next hclean =>
      rw [if_neg hclean, haddr', hlast]
      rw [haddr'] at h
      dsimp only
      split at h
      next hhome =>
        rw [if_pos (of_decide_eq_true hhome)]
        cases h
        rfl
      next hfar =>
        rw [if_neg (by simpa using hfar)]
        exact ih _ hnext h

/-- Between calls, the sender stands at a page, or all pages are dirty and it has not begun. -/
structure Ready (pageSize : Nat) (s : Sender) : Prop where
  wf : Wf pageSize s.blocks
  begun : ∀ i, s.lastBlock = some i → Valid pageSize s (i, s.lastOffset)
  fresh : s.lastBlock = none → s.lastOffset = 0 ∧ ∀ p, Valid pageSize s p → hit pageSize s p = true

def sent (s : Sender) (i off page : Nat) : Sender :=
  { s with
    lastBlock := some i
    lastOffset := off
    dirty := fun n => if n = page then false else s.dirty n }

theorem Ready.ramSaveBlock (h : Ready pageSize s) (hsize : 0 < pageSize) :
    (∃ i off b, s.blocks[i]? = some b ∧ off < b.length ∧ pageSize ∣ off ∧ s.dirty ((b.offset + off) / pageSize) = true ∧
      s.ramSaveBlock pageSize = .ok (sent s i off ((b.offset + off) / pageSize),
        s.pageRecord pageSize b (decide (s.lastBlock = some i)) off)) ∨
    (s.ramSaveBlock pageSize = .ok (s, [], 0) ∧ ∀ p, Valid pageSize s p → hit pageSize s p = false) := by
  have hfound : ∀ i off, s.scan pageSize (s.pageCount pageSize + 1) (s.lastBlock.getD 0, s.lastOffset) =
        .ok (true, i, off) → Valid pageSize s (i, off) → hit pageSize s (i, off) = true →
      ∃ i off b, s.blocks[i]? = some b ∧ off < b.length ∧ pageSize ∣ off ∧
        s.dirty ((b.offset + off) / pageSize) = true ∧
        s.ramSaveBlock pageSize = .ok (sent s i off ((b.offset + off) / pageSize),
          s.pageRecord pageSize b (decide (s.lastBlock = some i)) off) := by
    intro i off hscan ⟨b, hb, ho, hd⟩ hhit
    have hb' : s.blocks[i]? = some b := hb
    rw [hit_eq hb] at hhit
    refine ⟨i, off, b, hb, ho, hd, hhit, ?_⟩
    rw [Sender.ramSaveBlock, hscan, ok_bind]
    dsimp only
    rw [hb']
    rfl
  cases hlast : s.lastBlock with
  | none =>
    -- the first page is dirty, so `last_block` is not looked at
    obtain ⟨hzero, hdirty⟩ := h.fresh hlast
    obtain ⟨b, hb⟩ : ∃ b, s.blocks[0]? = some b :=
      ⟨_, getElem?_eq_getElem (length_pos_of_ne_nil h.wf.nonempty)⟩
    have hv : Valid pageSize s (0, 0) := ⟨b, hb, (h.wf.length b (mem_of_getElem? hb)).2, Nat.dvd_zero _⟩
    have hhit := hdirty _ hv
    left
    rw [← hlast]
    apply hfound 0 0 ?_ hv hhit
    rw [hlast, hzero, scan, getD_none]
    have haddr : s.address (0, 0) = some (b.offset + 0) := by simp [address, hb]
    rw [hit_eq hb] at hhit
    rw [haddr]
    dsimp only
    rw [if_pos hhit]
  | some last =>
    have hv := h.begun last hlast
    obtain ⟨r, hr, htrue, hfalse⟩ := search_spec (cyclic h.wf hsize) (hit pageSize s)
      (fun q => decide (s.address q = s.address (last, s.lastOffset))) hv (by
        intro q hq
        rw [decide_eq_true_iff]
        exact ⟨fun heq => eq_of_address h.wf hq hv heq, fun heq => by rw [heq]⟩)
    have hscan := scan_of_search h.wf hlast _ _ hv (search_succ hr)
    obtain ⟨found, i, off⟩ := r
    cases found with
    | true =>
      left
      rw [← hlast]
      obtain ⟨hv', hhit⟩ := htrue rfl
      apply hfound i off ?_ hv' hhit
      rw [hlast]
      exact hscan
    | false =>
      right
      obtain ⟨heq, hnone⟩ := hfalse rfl
      cases heq
      refine ⟨?_, hnone⟩
      obtain ⟨b, hb, -⟩ := hv
      have hb' : s.blocks[last]? = some b := hb
      rw [Sender.ramSaveBlock, hlast, getD_some, hscan, ok_bind]
      dsimp only
      rw [hb']
      dsimp only
      rw [if_neg (by simp), ← hlast]

end Scan

end GemDroid.Ram
