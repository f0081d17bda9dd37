import GemDroid.Qemud.Sink
import Mathlib.Algebra.Ring.Nat

/-! Ropes (`telephony/gsm.c`), as long as there is memory.

A rope that is started without a size has its bytes in the record at first. When it grows out of
the record, `realloc` is given no old bytes to copy. -/
namespace GemDroid.Sms
open List Qemud

inductive Rope.Place where
  | null
  | data0
  | heap
  deriving DecidableEq, Repr

structure Rope where
  data : Rope.Place
  bytes : Buffer
  pos : Nat
  max : Nat

namespace Rope

def init : Rope := ⟨.null, fun _ => 0, 0, 0⟩

def initAlloc (count : Int) (fresh : Buffer) : Rope :=
  if 0 < count then ⟨.heap, fun _ => 0, 0, count.toNat⟩ else ⟨.data0, fresh, 0, 16⟩

/-- The loop of `gsm_rope_ensure`; `none` if the `int` overflows. -/
def growMax (newCount newMax : Nat) : Option Nat :=
  if newMax < newCount then
    if newMax + (newMax / 2 + 4) < 2 ^ 31 then growMax newCount (newMax + (newMax / 2 + 4)) else none
  else some newMax
termination_by newCount - newMax

def ensure (rope : Rope) (newCount : Nat) (fresh : Buffer) : Option Rope :=
  if rope.data = .null then some { rope with max := newCount }
  else (growMax newCount rope.max).map fun newMax =>
    { rope with
      data := .heap, max := newMax
      bytes := fun i => if rope.data = .heap ∧ i < rope.max then rope.bytes i else fresh i }

def canGrow (rope : Rope) (count : Nat) (fresh : Buffer) : Option (Bool × Rope) :=
  if rope.data = .null then some (false, rope)
  else if rope.max < rope.pos + count then (rope.ensure (rope.pos + count) fresh).map (true, ·)
  else some (true, rope)

/-- `gsm_rope_add`. A single byte is added by `gsm_rope_add_c` in the same way, and so are the bytes
that the caller stores to what `gsm_rope_reserve` returns. -/
def add (rope : Rope) (buf : List Nat) (fresh : Buffer) : Option Rope :=
  if rope.pos + buf.length < 2 ^ 31 then
    (canGrow rope buf.length fresh).map fun (ok, rope) =>
      { rope with bytes := if ok then rope.bytes.copy rope.pos buf else rope.bytes, pos := rope.pos + buf.length }
  else none

inductive Op where
  | addC (c : Nat)
  | add (buf : List Nat)
  | reserve (filled : List Nat)

def Op.bytes : Op → List Nat
  | .addC c => [c]
  | .add buf => buf
  | .reserve filled => filled

def run (rope : Rope) : List (Op × Buffer) → Option Rope
  | [] => some rope
  | (op, fresh) :: ops => (rope.add op.bytes fresh).bind fun rope => run rope ops

def added (ops : List (Op × Buffer)) : List Nat := ops.flatMap fun op => op.1.bytes

def Collects (count : Int) (fresh : Buffer) (ops : List (Op × Buffer)) : Prop :=
  ∃ rope counted, run (initAlloc count fresh) ops = some rope ∧ run init ops = some counted ∧
    rope.bytes.read rope.pos = added ops ∧ rope.pos ≤ rope.max ∧ rope.pos = counted.pos

theorem growMax_spec (newMax : Nat) {newCount : Nat} (h : newCount ≤ 2 ^ 30) :
    ∃ m, growMax newCount newMax = some m ∧ newCount ≤ m := by
  fun_induction growMax newCount newMax with
  | case1 newMax hlt hint ih => exact ih
  | case2 newMax hlt hint => omega
  | case3 newMax hle => exact ⟨newMax, rfl, by omega⟩

structure Holds (rope : Rope) (text : List Nat) : Prop where
  data : rope.data ≠ .null
  inside : rope.data = .data0 → rope.max = 16
  pos : rope.pos = text.length
  max : rope.pos ≤ rope.max
  read : rope.bytes.read rope.pos = text

variable {rope : Rope} {text buf : List Nat}

theorem Holds.add (h : Holds rope text) (fresh : Buffer) (hsize : (text ++ buf).length ≤ 2 ^ 30)
    (hplace : rope.data = .heap ∨ (text ++ buf).length ≤ 16) :
    ∃ rope', rope.add buf fresh = some rope' ∧ Holds rope' (text ++ buf) ∧ (rope.data = .heap → rope'.data = .heap) := by
  rw [length_append, ← h.pos] at hsize hplace
  have hstored : ∀ rope' : Rope, rope'.data ≠ .null → (rope'.data = .data0 → rope'.max = 16) → rope'.pos = rope.pos →
      rope.pos + buf.length ≤ rope'.max → rope'.bytes.read rope.pos = text →
      Holds { rope' with bytes := rope'.bytes.copy rope'.pos buf, pos := rope'.pos + buf.length } (text ++ buf) := by
    intro rope' hdata hinside hpos hmax hread
    refine ⟨hdata, hinside, ?_, hpos ▸ hmax, ?_⟩
    · rw [length_append, ← h.pos, ← hpos]
    · rw [Buffer.read_copy, hpos, hread]
  rw [Rope.add, if_pos (by omega), canGrow, if_neg h.data]
  split
  next hlt =>
    have hheap : rope.data = .heap := by
      cases hd : rope.data with
      | null => exact absurd hd h.data
      | data0 =>
        have := h.inside hd
        have := hplace.resolve_left (by simp [hd])
        omega
      | heap => rfl
    obtain ⟨m, hm, hle⟩ := growMax_spec rope.max hsize
    rw [ensure, if_neg h.data, hm]
    refine ⟨_, rfl, hstored _ (by simp) (by simp) rfl hle ?_, fun _ => rfl⟩
    rw [← h.read]
    refine map_congr_left fun i hi => ?_
    have := mem_range.1 hi
    have := h.max
    exact if_pos ⟨hheap, by omega⟩
  next hle => exact ⟨_, rfl, hstored _ h.data h.inside rfl (by omega) h.read, id⟩

theorem add_init {counted : Rope} (h : counted.data = .null) (fresh : Buffer) (hsize : counted.pos + buf.length ≤ 2 ^ 30) :
    counted.add buf fresh = some { counted with pos := counted.pos + buf.length } := by
  rw [add, if_pos (by omega), canGrow, if_pos h]
  rfl

theorem Holds.run (counted : Rope) (ops : List (Op × Buffer)) (h : Holds rope text) (hcounted : counted.data = .null)
    (hpos : counted.pos = rope.pos) (hsize : (text ++ added ops).length ≤ 2 ^ 30)
    (hplace : rope.data = .heap ∨ (text ++ added ops).length ≤ 16) :
    ∃ rope' counted', rope.run ops = some rope' ∧ counted.run ops = some counted' ∧ Holds rope' (text ++ added ops) ∧
      rope'.pos = counted'.pos := by
  induction ops generalizing rope counted text with
  | nil => exact ⟨rope, counted, rfl, rfl, by rwa [added, flatMap_nil, append_nil], hpos.symm⟩
  | cons op ops ih =>
    have hsplit : text ++ added (op :: ops) = text ++ op.1.bytes ++ added ops := by simp [added]
    rw [hsplit] at hsize hplace ⊢
    have hle : (text ++ op.1.bytes).length ≤ (text ++ op.1.bytes ++ added ops).length := by simp
    obtain ⟨rope', hadd, h', hheap⟩ := h.add op.2 (Nat.le_trans hle hsize) (hplace.imp_right (Nat.le_trans hle))
    have hcount : counted.pos + op.1.bytes.length = (text ++ op.1.bytes).length := by
      rw [hpos, h.pos, length_append]
    rw [Rope.run, Rope.run, hadd, add_init hcounted op.2 (hcount ▸ Nat.le_trans hle hsize)]
    exact ih _ h' hcounted (hcount.trans h'.pos.symm) hsize (hplace.imp_left hheap)

/-- A rope that is started with a size, or stays in its record, collects all bytes. -/
theorem collects (count : Int) (fresh : Buffer) (ops : List (Op × Buffer)) (hsize : (added ops).length ≤ 2 ^ 30)
    (hplace : 0 < count ∨ (added ops).length ≤ 16) : Collects count fresh ops := by
  have hstart : Holds (initAlloc count fresh) [] ∧ (0 < count → (initAlloc count fresh).data = .heap) := by
    rw [initAlloc]
    split
    · exact ⟨⟨by simp, by simp, rfl, Nat.zero_le _, rfl⟩, fun _ => rfl⟩
    next h => exact ⟨⟨by simp, fun _ => rfl, rfl, Nat.zero_le _, rfl⟩, fun hcount => absurd hcount h⟩
  have hpos : (initAlloc count fresh).pos = 0 := hstart.1.pos
  obtain ⟨rope, counted, hrope, hcounted, h, hcount⟩ :=
    hstart.1.run init ops rfl hpos.symm hsize (hplace.imp_left hstart.2)
  exact ⟨rope, counted, hrope, hcounted, h.read, h.max, hcount⟩

/-- Three bytes in a rope of one. -/
theorem three_collected : Collects 1 (fun _ => 0) [(.addC 7, fun _ => 0), (.add [8, 9], fun _ => 0)] :=
  collects _ _ _ (by decide) (by decide)

/-- 17 bytes in a rope that was started without a size: the first 16 are lost. -/
theorem first_bytes_lost : ¬ Collects 0 (fun _ => 0) [(.add (replicate 16 1), fun _ => 0), (.addC 1, fun _ => 0)] := by
  rintro ⟨rope, counted, hrope, -, hread, -⟩
  have hgrow : growMax 17 16 = some 28 := by
    rw [growMax, growMax]
    rfl
  have hgrown : run (initAlloc 0 fun _ => 0) [(.add (replicate 16 1), fun _ => 0), (.addC 1, fun _ => 0)] =
      some ⟨.heap, Function.update (fun _ => 0) 16 1, 17, 28⟩ := by
    simp [run, add, canGrow, initAlloc, ensure, hgrow, Op.bytes, Buffer.copy]
  cases hgrown.symm.trans hrope
  revert hread
  decide

end Rope

end GemDroid.Sms
