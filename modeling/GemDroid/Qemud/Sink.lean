import Mathlib.Data.List.Basic

/-! Sinks and hexadecimal numbers of `android/hw-qemud.c`.

A sink reads a fixed number of bytes into a buffer, from as many messages as it takes. What
lies in the buffer then does not depend on where the messages were cut. -/
namespace GemDroid.Qemud
open Function List

def hexdigit (c : Nat) : Option Nat :=
  if 0x30 ≤ c ∧ c < 0x3a then some (c - 0x30)
  else if 0x61 ≤ c ∧ c < 0x67 then some (c - 0x61 + 10)
  else if 0x41 ≤ c ∧ c < 0x47 then some (c - 0x41 + 10)
  else none

def hexLoop (result : Nat) : List Nat → Option Nat
  | [] => some result
  | c :: hex =>
    match hexdigit c with
    | none => none
    | some d => hexLoop (result * 16 + d) hex

def hex2int (hex : List Nat) : Option Nat := hexLoop 0 hex

/-- A `QemudSink` without its buffer. -/
structure Sink where
  used : Nat
  size : Nat
  deriving DecidableEq, Repr

abbrev Buffer : Type := Nat → Nat

variable {buff : Buffer}

namespace Buffer

def copy (buff : Buffer) (pos : Nat) : List Nat → Buffer
  | [] => buff
  | c :: msg => copy (Function.update buff pos c) (pos + 1) msg

def read (buff : Buffer) (n : Nat) : List Nat := (List.range n).map buff

theorem read_update {n pos c : Nat} (h : n ≤ pos) : Buffer.read (update buff pos c) n = buff.read n := by
  apply map_congr_left
  intro i hi
  have := mem_range.1 hi
  exact update_of_ne (by omega) _ _

theorem read_copy (buff : Buffer) (n : Nat) (msg : List Nat) :
    (buff.copy n msg).read (n + msg.length) = buff.read n ++ msg := by
  induction msg generalizing buff n with
  | nil => simp [copy, read]
  | cons c msg ih =>
    have hlen : n + (c :: msg).length = n + 1 + msg.length := by
      simp only [length_cons]
      omega
    have hone : Buffer.read (update buff n c) (n + 1) = buff.read n ++ [c] := by
      rw [read, range_succ, map_append, ← read, read_update (Nat.le_refl _)]
      simp
    rw [copy, hlen, ih, hone, append_assoc]
    rfl

end Buffer

def sinkFill (ss : Sink) (buff : Buffer) (msg : List Nat) : Bool × Sink × Buffer × List Nat :=
  let avail := ss.size - ss.used
  if avail = 0 then (true, ss, buff, msg)
  else
    let avail := min avail msg.length
    let used := ss.used + avail
    (used = ss.size, { ss with used := used }, buff.copy ss.used (msg.take avail), msg.drop avail)

def sinkNeeded (ss : Sink) : Nat := ss.size - ss.used

theorem length_lt_append {a : List Nat} (h : a ≠ []) (r : List Nat) : r.length < (a ++ r).length := by
  have := length_pos_iff.2 h
  rw [length_append]
  omega

/-- A sink that holds `w`, and a message: all of it is stored, or the part that is missing. -/
theorem sinkFill_cases {w : List Nat} {size : Nat} (msg : List Nat) (hlen : w.length < size)
    (hread : buff.read w.length = w) : ((w ++ msg).length < size ∧ ∃ buff', sinkFill ⟨w.length, size⟩ buff msg =
        (false, ⟨(w ++ msg).length, size⟩, buff', []) ∧ buff'.read (w ++ msg).length = w ++ msg) ∨
    (∃ a r, msg = a ++ r ∧ a ≠ [] ∧ (w ++ a).length = size ∧
      ∃ buff', sinkFill ⟨w.length, size⟩ buff msg = (true, ⟨size, size⟩, buff', r) ∧ buff'.read size = w ++ a) := by
  have hneed : size - w.length ≠ 0 := by omega
  by_cases hpart : (w ++ msg).length < size
  · have hmin : min (size - w.length) msg.length = msg.length := by
      rw [length_append] at hpart
      omega
    have hfull : ¬ w.length + msg.length = size := by
      rw [length_append] at hpart
      omega
    refine Or.inl ⟨hpart, buff.copy w.length msg, ?_, ?_⟩
    · simp [sinkFill, hneed, hmin, hfull, decide_false, take_length, drop_length, length_append]
    · rw [length_append, Buffer.read_copy, hread]
  obtain ⟨a, r, rfl, ha⟩ : ∃ a r, msg = a ++ r ∧ a.length = size - w.length := by
    refine ⟨_, _, (take_append_drop (size - w.length) msg).symm, ?_⟩
    rw [length_append] at hpart
    rw [length_take]
    omega
  have hmin : min (size - w.length) (a ++ r).length = a.length := by
    rw [length_append]
    omega
  have hfull : w.length + a.length = size := by omega
  refine Or.inr ⟨a, r, rfl, ne_nil_of_length_pos (by omega), by rw [length_append, hfull], buff.copy w.length a, ?_, ?_⟩
  · simp only [sinkFill, hneed, if_false, hmin, hfull, decide_true, take_left, drop_left]
  · rw [← hfull, Buffer.read_copy, hread]

theorem sinkFill_stuck {ss : Sink} {msg : List Nat} (h : ss.size ≤ ss.used) :
    sinkFill ss buff msg = (true, ss, buff, msg) := by
  simp [sinkFill, show ss.size - ss.used = 0 by omega]

end GemDroid.Qemud
