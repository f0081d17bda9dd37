import GemDroid.Lib.Ring

/-! Circular buffers of bytes (`android/cbuffer.c`). -/
namespace GemDroid.Chr
open Lib List

variable {len : Nat}

structure CBuffer where
  buff : Nat → UInt8
  size : Nat
  rpos : Nat
  count : Nat
  rpos_lt : rpos < size
  count_le : count ≤ size

namespace CBuffer

/-- The bytes to be read, in order. -/
def contents (cb : CBuffer) : List UInt8 := ring cb.size cb.buff cb.rpos cb.count

variable (cb : CBuffer)

@[simp] theorem length_contents : cb.contents.length = cb.count := length_ring

theorem contents_eq_nil : cb.contents = [] ↔ cb.count = 0 := by
  rw [← length_eq_zero_iff, length_contents]

def reset (buff : Nat → UInt8) (size : Nat) (h : 0 < size) : CBuffer := ⟨buff, size, 0, 0, h, Nat.zero_le _⟩

/-! ### Writing -/

/-- Where the next byte goes. -/
def wpos (cb : CBuffer) : Nat :=
  if cb.rpos + cb.count ≥ cb.size then cb.rpos + cb.count - cb.size else cb.rpos + cb.count

theorem wrap_eq {a n : Nat} (h : a < 2 * n) : (if a ≥ n then a - n else a) = a % n := by
  split
  · rw [Nat.mod_eq_sub_mod (by omega), Nat.mod_eq_of_lt (by omega)]
  · rw [Nat.mod_eq_of_lt (by omega)]

theorem wpos_eq : cb.wpos = (cb.rpos + cb.count) % cb.size :=
  wrap_eq (by have := cb.rpos_lt; have := cb.count_le; omega)

theorem wpos_lt : cb.wpos < cb.size := by
  rw [wpos_eq]
  exact Nat.mod_lt _ (by have := cb.rpos_lt; omega)

/-- How many bytes can be copied there at once. -/
def writeAvail (cb : CBuffer) : Nat :=
  if cb.wpos + (cb.size - cb.count) > cb.size then cb.size - cb.wpos else cb.size - cb.count

theorem writeAvail_le : cb.count + cb.writeAvail ≤ cb.size ∧ cb.wpos + cb.writeAvail ≤ cb.size := by
  have hc := cb.count_le
  have hw := cb.wpos_lt
  rw [writeAvail]
  split <;> omega

theorem writeAvail_pos (h : cb.count ≠ cb.size) : 0 < cb.writeAvail := by
  have hc := cb.count_le
  have hw := cb.wpos_lt
  rw [writeAvail]
  split <;> omega

def writeBlock (cb : CBuffer) (bytes : List UInt8) : CBuffer :=
  { cb with
    buff := blit cb.buff cb.wpos (bytes.take cb.writeAvail)
    count := cb.count + (bytes.take cb.writeAvail).length
    count_le := by
      have := cb.writeAvail_le.1
      have := List.length_take_le cb.writeAvail bytes
      omega }

theorem contents_writeBlock (bytes : List UInt8) :
    (cb.writeBlock bytes).contents = cb.contents ++ bytes.take cb.writeAvail := by
  have hle := cb.writeAvail_le
  have hlen := length_take_le cb.writeAvail bytes
  have hcount : cb.count + (bytes.take cb.writeAvail).length ≤ cb.size := by omega
  have hend : cb.wpos + (bytes.take cb.writeAvail).length ≤ cb.size := by omega
  exact ring_blit hcount (fun _ => cb.wpos_eq) hend

/-- The loop of `cbuffer_write`, with the bytes that are left in the end. It copies at
least one byte a round, so it takes no more rounds than there are bytes. -/
def writeLoop : Nat → CBuffer → List UInt8 → CBuffer × List UInt8
  | 0, cb, bytes => (cb, bytes)
  | rounds + 1, cb, bytes =>
    if bytes = [] ∨ cb.size - cb.count = 0 then (cb, bytes)
    else writeLoop rounds (cb.writeBlock bytes) (bytes.drop cb.writeAvail)

def write (cb : CBuffer) (bytes : List UInt8) : CBuffer × List UInt8 := writeLoop bytes.length cb bytes

/-- What a write does: some bytes are taken, and if any is left the buffer is full. -/
structure Wrote (cb : CBuffer) (bytes : List UInt8) (r : CBuffer × List UInt8) : Prop where
  kept : r.1.contents ++ r.2 = cb.contents ++ bytes
  size : r.1.size = cb.size
  full : r.2 = [] ∨ r.1.count = r.1.size

theorem writeLoop_wrote (rounds : Nat) (cb : CBuffer) (bytes : List UInt8) (h : bytes.length ≤ rounds) :
    Wrote cb bytes (writeLoop rounds cb bytes) := by
  induction rounds generalizing cb bytes with
  | zero => exact ⟨rfl, rfl, .inl (length_eq_zero_iff.mp (Nat.le_zero.mp h))⟩
  | succ rounds ih =>
    rw [writeLoop]
    split
    · rename_i hstop
      have hc := cb.count_le
      exact ⟨rfl, rfl, hstop.imp_right fun hfull => by simp only; omega⟩
    rename_i hgo
    have hpos := cb.writeAvail_pos (by intro heq; apply hgo; right; omega)
    have hne : 0 < bytes.length := length_pos_of_ne_nil fun hnil => hgo (.inl hnil)
    have hrest := ih (cb.writeBlock bytes) (bytes.drop cb.writeAvail) (by rw [length_drop]; omega)
    refine ⟨?_, hrest.size, hrest.full⟩
    rw [hrest.kept, contents_writeBlock, append_assoc, take_append_drop]

theorem write_wrote (bytes : List UInt8) : Wrote cb bytes (cb.write bytes) :=
  writeLoop_wrote _ cb bytes (le_refl _)

/-! ### Reading -/

/-- The number of bytes that `cbuffer_read_peek` returns. -/
def readAvail (cb : CBuffer) : Nat := if cb.rpos + cb.count > cb.size then cb.size - cb.rpos else cb.count

theorem readAvail_le : cb.readAvail ≤ cb.count ∧ cb.rpos + cb.readAvail ≤ cb.size := by
  have hr := cb.rpos_lt
  rw [readAvail]
  split <;> omega

theorem readAvail_pos (h : cb.count ≠ 0) : 0 < cb.readAvail := by
  have hr := cb.rpos_lt
  rw [readAvail]
  split <;> omega

def peek (cb : CBuffer) (len : Nat) : List UInt8 := (List.range len).map fun i => cb.buff (cb.rpos + i)

@[simp] theorem length_peek (len : Nat) : (cb.peek len).length = len := by
  simp [peek]

def stepLen (cb : CBuffer) (len : Nat) : Nat := if len > cb.count then cb.count else len

theorem stepLen_le (len : Nat) : cb.stepLen len ≤ cb.count := by
  rw [stepLen]
  split <;> omega

def readStep (cb : CBuffer) (len : Nat) : CBuffer :=
  { cb with
    rpos :=
      if cb.rpos + cb.stepLen len ≥ cb.size then cb.rpos + cb.stepLen len - cb.size else cb.rpos + cb.stepLen len
    count := cb.count - cb.stepLen len
    rpos_lt := by
      have := cb.rpos_lt
      have := cb.count_le
      have := cb.stepLen_le len
      split <;> omega
    count_le := by
      have := cb.count_le
      omega }

theorem rpos_readStep (len : Nat) : (cb.readStep len).rpos = (cb.rpos + cb.stepLen len) % cb.size :=
  wrap_eq (by have := cb.rpos_lt; have := cb.count_le; have := cb.stepLen_le len; omega)

theorem contents_readStep (len : Nat) : (cb.readStep len).contents = cb.contents.drop len := by
  have hle := cb.stepLen_le len
  have hsplit : cb.contents = ring cb.size cb.buff cb.rpos (cb.stepLen len) ++ (cb.readStep len).contents := by
    rw [contents, ← Nat.add_sub_of_le hle, ring_add, ← rpos_readStep]
    rfl
  have hdrop : cb.contents.drop len = cb.contents.drop (cb.stepLen len) := by
    rw [stepLen]
    split
    · rw [drop_eq_nil_of_le (by rw [length_contents]; omega), drop_eq_nil_of_le (by rw [length_contents])]
    · rfl
  rw [hdrop, hsplit, drop_left' length_ring]

theorem peek_eq (h : len ≤ cb.readAvail) : cb.peek len = cb.contents.take len := by
  have hle := cb.readAvail_le
  have hblock : ring cb.size cb.buff cb.rpos len = cb.peek len := ring_block (by omega)
  rw [contents, ← Nat.add_sub_of_le (show len ≤ cb.count by omega), ring_add, take_left' length_ring, hblock]

theorem peek_append_readStep (h : len ≤ cb.readAvail) : cb.peek len ++ (cb.readStep len).contents = cb.contents := by
  rw [peek_eq cb h, contents_readStep, take_append_drop]

def readBlock (cb : CBuffer) (len : Nat) : Nat := if cb.readAvail > len then len else cb.readAvail

/-- The loop of `cbuffer_read`, with the bytes that are copied. -/
def readLoop : Nat → CBuffer → Nat → CBuffer × List UInt8
  | 0, cb, _ => (cb, [])
  | rounds + 1, cb, len =>
    if len = 0 ∨ cb.count = 0 then (cb, [])
    else
      let r := readLoop rounds (cb.readStep (cb.readBlock len)) (len - cb.readBlock len)
      (r.1, cb.peek (cb.readBlock len) ++ r.2)

def read (cb : CBuffer) (len : Nat) : CBuffer × List UInt8 := readLoop len cb len

theorem readLoop_eq {rounds : Nat} (h : len ≤ rounds) :
    (readLoop rounds cb len).1.size = cb.size ∧ (readLoop rounds cb len).2 = cb.contents.take len ∧
      (readLoop rounds cb len).1.contents = cb.contents.drop len := by
  induction rounds generalizing cb len with
  | zero => simp [readLoop, Nat.le_zero.mp h]
  | succ rounds ih =>
    rw [readLoop]
    split
    · rename_i hstop
      rcases hstop with rfl | hempty
      · simp
      · simp [(contents_eq_nil cb).mpr hempty]
    rename_i hgo
    push Not at hgo
    have hpos := cb.readAvail_pos hgo.2
    have hle : cb.readBlock len ≤ cb.readAvail ∧ cb.readBlock len ≤ len ∧ 0 < cb.readBlock len := by
      rw [readBlock]
      split <;> omega
    obtain ⟨hsize, htake, hdrop⟩ := ih (cb.readStep (cb.readBlock len)) (show len - cb.readBlock len ≤ rounds by omega)
    simp only [hsize, htake, hdrop, contents_readStep, peek_eq cb hle.1, drop_drop, ← take_add,
      Nat.add_sub_of_le hle.2.1]
    exact ⟨rfl, trivial, trivial⟩

/-! ### A queue of bytes -/

def writeStep (cb : CBuffer) (len : Nat) : CBuffer :=
  { cb with
    count := if cb.count + len > cb.size then cb.size else cb.count + len
    count_le := by split <;> omega }

inductive Op
  | write (bytes : List UInt8)
  | read (len : Nat)
  /-- `cbuffer_write_peek`, bytes stored at the base, `cbuffer_write_step`. -/
  | writePeek (bytes : List UInt8)
  /-- `cbuffer_read_peek`, `cbuffer_read_step`. -/
  | readPeek (len : Nat)

/-- The number of bytes accepted and the bytes returned or seen. -/
def call (cb : CBuffer) : Op → CBuffer × Nat × List UInt8
  | .write bytes => ((cb.write bytes).1, bytes.length - (cb.write bytes).2.length, [])
  | .read len => ((cb.read len).1, 0, (cb.read len).2)
  | .writePeek bytes =>
    -- no more are stored than the returned length
    let stored := bytes.take cb.writeAvail
    (writeStep { cb with buff := blit cb.buff cb.wpos stored } stored.length, stored.length, [])
  | .readPeek len => (cb.readStep len, 0, cb.peek cb.readAvail)

/-- A queue of at most `cap` bytes. Of its bytes, or of its room, a peek may offer a part. -/
def Queue (cap : Nat) (q q' : List UInt8) (out : Nat × List UInt8) : Op → Prop
  | .write bytes => out = (min bytes.length (cap - q.length), []) ∧ q' = q ++ bytes.take out.1
  | .read len => out = (0, q.take len) ∧ q' = q.drop len
  | .writePeek bytes => ∃ room ≤ cap - q.length, out = (min bytes.length room, []) ∧ q' = q ++ bytes.take room
  | .readPeek len => ∃ seen ≤ q.length, out = (0, q.take seen) ∧ q' = q.drop len

theorem call_queue (op : Op) : (cb.call op).1.size = cb.size ∧
    Queue cb.size cb.contents (cb.call op).1.contents (cb.call op).2 op := by
  cases op with
  | write bytes =>
    obtain ⟨hkept, hsize, hfull⟩ := cb.write_wrote bytes
    have hlen := congrArg length hkept
    simp only [length_append, length_contents] at hlen
    have hleft := hfull.imp_left (congrArg length)
    rw [length_nil] at hleft
    have hr := (cb.write bytes).1.count_le
    have hc := cb.count_le
    refine ⟨hsize, Prod.ext ?_ rfl, ?_⟩
    · rw [length_contents]
      simp only [call]
      omega
    · have hsplit := hkept.trans (congrArg _ (take_append_drop (bytes.length - (cb.write bytes).2.length) bytes).symm)
      rw [← append_assoc] at hsplit
      exact append_inj_left' hsplit (by rw [length_drop]; omega)
  | read len =>
    obtain ⟨hsize, hread, hleft⟩ := readLoop_eq cb (le_refl len)
    exact ⟨hsize, Prod.ext rfl hread, hleft⟩
  | writePeek bytes =>
    have hle := cb.writeAvail_le
    have hlen := length_take_le cb.writeAvail bytes
    have hcount : ¬ cb.count + (bytes.take cb.writeAvail).length > cb.size := by omega
    refine ⟨rfl, cb.writeAvail, by rw [length_contents]; omega, Prod.ext (by simp [call, min_comm]) rfl, ?_⟩
    simp only [call, writeStep, if_neg hcount]
    exact contents_writeBlock cb bytes
  | readPeek len =>
    exact ⟨rfl, cb.readAvail, by simpa using cb.readAvail_le.1, Prod.ext rfl (peek_eq cb le_rfl),
      contents_readStep cb len⟩

/-- The sums that the functions form are values of an `int`. -/
def SumsFit (cb : CBuffer) : Prop :=
  cb.rpos + cb.count < 2 ^ 31 ∧ cb.wpos + (cb.size - cb.count) < 2 ^ 31 ∧ cb.count + cb.writeAvail < 2 ^ 31 ∧
    ∀ len, cb.rpos + cb.stepLen len < 2 ^ 31

theorem sumsFit (h : cb.size ≤ 2 ^ 30) : cb.SumsFit := by
  have hr := cb.rpos_lt
  have hc := cb.count_le
  have hw := cb.wpos_lt
  have ha := cb.writeAvail_le
  refine ⟨by omega, by omega, by omega, fun len => ?_⟩
  have hs := cb.stepLen_le len
  omega

/-- Whatever was called before, a call is one on a queue of at most `size` bytes. No `int` overflows
in a buffer of at most 2^30 bytes. -/
theorem calls_queue (ops : List Op) (op : Op) : let now := ops.foldl (fun cb op => (cb.call op).1) cb
    Queue cb.size now.contents (now.call op).1.contents (now.call op).2 op ∧
      now.size = cb.size ∧ now.rpos < cb.size ∧ now.count ≤ cb.size ∧ (cb.size ≤ 2 ^ 30 → now.SumsFit) := by
  have hsize : (ops.foldl (fun cb op => (cb.call op).1) cb).size = cb.size := by
    induction ops generalizing cb with
    | nil => rfl
    | cons op ops ih => exact (ih _).trans (call_queue cb op).1
  rw [← hsize]
  exact ⟨(call_queue _ op).2, rfl, rpos_lt _, count_le _, sumsFit _⟩

end CBuffer

end GemDroid.Chr
