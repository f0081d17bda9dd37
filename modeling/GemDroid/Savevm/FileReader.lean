import GemDroid.Lib.Reach
import Mathlib.Algebra.Ring.Nat

/-! Reading from a `QEMUFile` (`savevm.c`).

A window of `IO_BUF_SIZE` bytes is refilled when a call wants more than it has. One refill is made for
a call that peeks, however short it is; and a refill of a full window reads nothing, which is taken for
the end of the stream. -/
namespace GemDroid.Savevm.FileReader
open Lib List Nat

def IO_BUF_SIZE : Nat := 32768

/-- A `QEMUFile` to read from: the first `buf_size` bytes of its buffer, what the backend has not handed
over, and how short its next reads are. -/
structure QEMUFile where
  buf : List UInt8
  bufIndex : Nat
  lastError : Int
  backend : List UInt8
  short : Nat → Nat

open QEMUFile

def QEMUFile.window (f : QEMUFile) : List UInt8 := f.buf.drop f.bufIndex

/-- The length of the next read of the backend: a byte at least, if there are bytes and room. -/
def QEMUFile.readLen (f : QEMUFile) : Nat :=
  min (f.short 0 + 1) (min (IO_BUF_SIZE - f.window.length) f.backend.length)

def fillBuffer (f : QEMUFile) : QEMUFile where
  buf := f.window ++ f.backend.take f.readLen
  bufIndex := 0
  lastError := if f.readLen = 0 ∧ f.lastError = 0 then -5 else f.lastError
  backend := f.backend.drop f.readLen
  short n := f.short (n + 1)

def fileSkip (f : QEMUFile) (size : Nat) : QEMUFile :=
  if f.bufIndex + size ≤ f.buf.length then { f with bufIndex := f.bufIndex + size } else f

/-- The file after the refill that a call for the bytes below `last` makes if it has to. -/
def refill (f : QEMUFile) (last : Nat) : QEMUFile :=
  if f.buf.length < f.bufIndex + last then fillBuffer f else f

def peekBuffer (f : QEMUFile) (size offset : Nat) : List UInt8 × QEMUFile :=
  (((refill f (offset + size)).window.drop offset).take size, refill f (offset + size))

def getBufferFrom : Nat → Nat → QEMUFile → List UInt8 × QEMUFile
  | 0, _, f => ([], f)
  | rounds + 1, pending, f =>
    if pending = 0 then ([], f)
    else if (peekBuffer f pending 0).1.length = 0 then ([], (peekBuffer f pending 0).2)
    else ((getBufferFrom rounds (pending - (peekBuffer f pending 0).1.length)
      (fileSkip (peekBuffer f pending 0).2 (peekBuffer f pending 0).1.length)).map ((peekBuffer f pending 0).1 ++ ·) id)

def getBuffer (f : QEMUFile) (size : Nat) : List UInt8 × QEMUFile := getBufferFrom size size f

def peekByte (f : QEMUFile) (offset : Nat) : UInt8 × QEMUFile :=
  ((refill f (offset + 1)).window.getD offset 0, refill f (offset + 1))

def getByte (f : QEMUFile) : UInt8 × QEMUFile := ((peekByte f 0).1, fileSkip (peekByte f 0).2 1)

/-! ### What a file has left -/

/-- The file is at `rest` of the stream, and the window is one of the buffer. -/
structure At (f : QEMUFile) (rest : List UInt8) : Prop where
  index : f.bufIndex ≤ f.buf.length
  size : f.window.length ≤ IO_BUF_SIZE
  rest : f.window ++ f.backend = rest

section At
variable {f : QEMUFile} {rest : List UInt8}

section
variable (h : At f rest)
include h

theorem At.length : f.bufIndex + f.window.length = f.buf.length := by
  have := h.index
  rw [window, length_drop]
  omega

theorem At.left : f.window.length + f.backend.length = rest.length := by
  rw [← h.rest, length_append]

theorem At.fillBuffer : At (fillBuffer f) rest ∧ (fillBuffer f).window.length = f.window.length + f.readLen := by
  have hwindow : (FileReader.fillBuffer f).window = f.window ++ f.backend.take f.readLen := drop_zero
  have hlen : (FileReader.fillBuffer f).window.length = f.window.length + f.readLen := by
    rw [hwindow, length_append, length_take, readLen]
    omega
  have hsize := h.size
  refine ⟨⟨zero_le _, ?_, ?_⟩, hlen⟩
  · rw [hlen, readLen]
    omega
  · rw [hwindow, append_assoc]
    exact (congrArg _ (take_append_drop _ _)).trans h.rest

/-- A refill moves bytes into the window, one at least if there are bytes and room. -/
theorem At.refill (last : Nat) : At (refill f last) rest ∧
    min (min last IO_BUF_SIZE) (min (f.window.length + 1) rest.length) ≤ (refill f last).window.length ∧
    (last ≤ rest.length → f.window.length < IO_BUF_SIZE ∨ last ≤ IO_BUF_SIZE →
      (refill f last).lastError = f.lastError) := by
  have hlen := h.length
  have hrest := h.left
  rw [FileReader.refill]
  split
  next hlow =>
    obtain ⟨hat, hnew⟩ := h.fillBuffer
    refine ⟨hat, ?_, fun hlast hroom => if_neg ?_⟩
    · rw [hnew, readLen]
      omega
    · rw [readLen]
      omega
  next => exact ⟨h, by omega, fun _ _ => rfl⟩

end

theorem lastError_fileSkip (size : Nat) : (fileSkip f size).lastError = f.lastError := by
  rw [fileSkip]
  split <;> rfl

section
variable (h : At f rest)
include h

theorem At.skip {size : Nat} (hsize : size ≤ f.window.length) :
    At (fileSkip f size) (rest.drop size) ∧ (fileSkip f size).window = f.window.drop size := by
  have hlen := h.length
  have hwindow : ({ f with bufIndex := f.bufIndex + size } : QEMUFile).window = f.window.drop size := drop_drop.symm
  rw [fileSkip, if_pos (by omega)]
  refine ⟨⟨by simp only; omega, ?_, ?_⟩, hwindow⟩
  · rw [hwindow, length_drop]
    exact le_trans (sub_le _ _) h.size
  · rw [hwindow, ← h.rest, drop_append_of_le_length hsize]

theorem At.getBufferFrom {rounds pending : Nat} (hrounds : pending ≤ rounds) :
    (getBufferFrom rounds pending f).1 = rest.take pending ∧ At (getBufferFrom rounds pending f).2 (rest.drop pending) ∧
      (pending ≤ rest.length → f.window.length < IO_BUF_SIZE ∨ pending ≤ IO_BUF_SIZE →
        (getBufferFrom rounds pending f).2.lastError = f.lastError) := by
  induction rounds generalizing f rest pending with
  | zero =>
    obtain rfl : pending = 0 := by omega
    exact ⟨rfl, h, fun _ _ => rfl⟩
  | succ rounds ih =>
    rw [FileReader.getBufferFrom]
    by_cases hzero : pending = 0
    · subst hzero
      exact ⟨rfl, h, fun _ _ => rfl⟩
    rw [if_neg hzero, peekBuffer, zero_add, drop_zero]
    obtain ⟨hat, hmin, herror⟩ := h.refill pending
    generalize FileReader.refill f pending = g at *
    rw [IO_BUF_SIZE] at *
    rw [length_take]
    split
    next hnone =>
      -- nothing is left
      have hnil : rest = [] := eq_nil_of_length_eq_zero (by omega)
      subst hnil
      rw [take_nil, drop_nil]
      exact ⟨rfl, hat, fun hle => absurd hle (by simpa using hzero)⟩
    next hsome =>
      obtain ⟨hskip, hwindow⟩ := hat.skip (min_le_right pending g.window.length)
      have hleft : pending - min pending g.window.length ≤ rounds := by omega
      obtain ⟨hbytes, hat', herror'⟩ := ih hskip hleft
      have htake : g.window.take pending = rest.take (min pending g.window.length) := by
        rw [← hat.rest, take_append_of_le_length (min_le_right _ _), take_eq_take_min]
      refine ⟨?_, ?_, fun hle hroom => ?_⟩
      · show g.window.take pending ++ (FileReader.getBufferFrom rounds _ _).1 = _
        rw [hbytes, htake, ← take_add, Nat.add_sub_cancel' (Nat.min_le_left _ _)]
      · rw [drop_drop, Nat.add_sub_cancel' (Nat.min_le_left _ _)] at hat'
        exact hat'
      · refine (herror' (by rw [length_drop]; omega) ?_).trans ((lastError_fileSkip ..).trans (herror hle hroom))
        rw [hwindow, length_drop]
        omega

theorem At.peekByte {offset : Nat} (hoffset : offset ≤ f.window.length) (hsize : offset < IO_BUF_SIZE) :
    (peekByte f offset).1 = rest.getD offset 0 := by
  obtain ⟨hat, hmin, -⟩ := h.refill (offset + 1)
  rw [FileReader.peekByte]
  generalize FileReader.refill f (offset + 1) = g at *
  have hrest := hat.left
  rw [← hat.rest, getD_eq_getElem?_getD, getD_eq_getElem?_getD]
  obtain hlt | hge := lt_or_ge offset g.window.length
  · rw [getElem?_append_left hlt]
  · rw [getElem?_eq_none hge, getElem?_eq_none (by rw [length_append]; omega)]

theorem At.getByte : (getByte f).1 = rest.getD 0 0 ∧ At (getByte f).2 (rest.drop 1) ∧
    (1 ≤ rest.length → (getByte f).2.lastError = f.lastError) := by
  refine ⟨h.peekByte (zero_le _) (by decide), ?_⟩
  obtain ⟨hat, hmin, herror⟩ := h.refill 1
  rw [FileReader.getByte, FileReader.peekByte]
  generalize FileReader.refill f (0 + 1) = g at *
  rw [IO_BUF_SIZE] at *
  dsimp only
  obtain hnone | hpos := Nat.eq_zero_or_pos g.window.length
  · -- at the end of the stream nothing is skipped
    have hnil : rest = [] := eq_nil_of_length_eq_zero (by omega)
    have hlen := hat.length
    subst hnil
    rw [fileSkip, if_neg (by omega)]
    exact ⟨hat, fun hle => absurd hle (by decide)⟩
  · exact ⟨(hat.skip hpos).1, fun hle => (lastError_fileSkip 1).trans (herror hle (by omega))⟩

end

theorem getBufferFrom_error (rounds pending : Nat) (h : f.lastError ≠ 0) :
    (getBufferFrom rounds pending f).2.lastError ≠ 0 := by
  have hrefill : ∀ {f : QEMUFile} last, f.lastError ≠ 0 → (refill f last).lastError ≠ 0 := by
    intro f last h
    rw [refill]
    split
    · exact (if_neg fun hboth => h hboth.2).trans_ne h
    · exact h
  induction rounds generalizing f pending with
  | zero => exact h
  | succ rounds ih =>
    rw [getBufferFrom]
    split
    · exact h
    split
    · exact hrefill _ h
    · exact ih _ ((lastError_fileSkip _).trans_ne (hrefill _ h))

theorem getBuffer_full (h : At f rest) (hfull : f.window.length = IO_BUF_SIZE) {size : Nat} (hsize : IO_BUF_SIZE < size) :
    (getBuffer f size).2.lastError ≠ 0 := by
  have hlen := h.length
  obtain ⟨rounds, rfl⟩ : ∃ rounds, size = rounds + 1 := ⟨size - 1, by omega⟩
  have hread : f.readLen = 0 := by
    rw [readLen, hfull]
    omega
  have herror : (refill f (0 + (rounds + 1))).lastError ≠ 0 := by
    rw [refill, if_pos (by omega), fillBuffer, hread]
    dsimp only
    split
    next => decide
    next hne => exact fun hzero => hne ⟨rfl, hzero⟩
  rw [getBuffer, getBufferFrom, if_neg (succ_ne_zero _)]
  split
  · exact herror
  · exact getBufferFrom_error _ _ ((lastError_fileSkip _).trans_ne herror)

end At

/-! ### Runs -/

inductive Call where
  | getByte
  | getBuffer (size : Nat)
  | peekByte (offset : Nat)
  | peekBuffer (size offset : Nat)

def call (f : QEMUFile) : Call → List UInt8 × QEMUFile
  | .getByte => ([(getByte f).1], (getByte f).2)
  | .getBuffer size => getBuffer f size
  | .peekByte offset => ([(peekByte f offset).1], (peekByte f offset).2)
  | .peekBuffer size offset => peekBuffer f size offset

def Call.consumed : Call → Nat
  | .getByte => 1
  | .getBuffer size => size
  | _ => 0

def Call.asked : Call → Nat
  | .getByte => 1
  | .getBuffer size => size
  | .peekByte offset => offset + 1
  | .peekBuffer size offset => offset + size

/-- What a call returns of the bytes that are left; no byte reads as zero, and `qemu_peek_buffer` may
return fewer bytes than it is asked for. -/
def Answers (rest : List UInt8) : Call → List UInt8 → Prop
  | .getByte, bytes => bytes = [rest.getD 0 0]
  | .getBuffer size, bytes => bytes = rest.take size
  | .peekByte offset, bytes => bytes = [rest.getD offset 0]
  | .peekBuffer size offset, bytes => ∃ n ≤ size, bytes = (rest.drop offset).take n

/-- A file in a run, what is left of the stream, and whether a call has asked for more than that. -/
structure Traced where
  file : QEMUFile
  rest : List UInt8
  ended : Bool

/-- The window is not full when a call asks for more than it can hold, and no byte is peeked at further
than the one behind the window. -/
def Meets (t : Traced) (c : Call) : Prop :=
  (t.file.window.length < IO_BUF_SIZE ∨ c.asked ≤ IO_BUF_SIZE) ∧
    ∀ offset, c = .peekByte offset → offset ≤ t.file.window.length ∧ offset < IO_BUF_SIZE

def Starts (t : Traced) : Prop := ∃ bytes short, t = ⟨⟨[], 0, 0, bytes, short⟩, bytes, false⟩

def Calls (t : Traced) (c : Call) (t' : Traced) : Prop :=
  t' = ⟨(call t.file c).2, t.rest.drop c.consumed, t.ended || decide (t.rest.length < c.asked)⟩

theorem At.call {t : Traced} (h : At t.file t.rest) {c : Call} (hmeets : Meets t c) :
    At (call t.file c).2 (t.rest.drop c.consumed) ∧ Answers t.rest c (call t.file c).1 ∧
      (c.asked ≤ t.rest.length → (call t.file c).2.lastError = t.file.lastError) := by
  obtain ⟨hroom, hpeek⟩ := hmeets
  cases c with
  | getByte =>
    obtain ⟨hbyte, hat, herror⟩ := h.getByte
    exact ⟨hat, congrArg (fun b => [b]) hbyte, herror⟩
  | getBuffer size =>
    obtain ⟨hbytes, hat, herror⟩ := h.getBufferFrom (le_refl size)
    exact ⟨hat, hbytes, fun hle => herror hle hroom⟩
  | peekByte offset =>
    obtain ⟨hat, -, herror⟩ := h.refill (offset + 1)
    have hbyte := h.peekByte (hpeek offset rfl).1 (hpeek offset rfl).2
    exact ⟨hat, congrArg (fun b => [b]) hbyte, fun hle => herror hle hroom⟩
  | peekBuffer size offset =>
    obtain ⟨hat, -, herror⟩ := h.refill (offset + size)
    have hbegin : (FileReader.refill t.file (offset + size)).window.drop offset <+: t.rest.drop offset := by
      rw [← hat.rest, drop_append]
      exact prefix_append _ _
    have hbytes := prefix_iff_eq_take.mp (( take_prefix size _).trans hbegin)
    exact ⟨hat, ⟨_, length_take_le _ _, hbytes⟩, fun hle => herror hle hroom⟩

/-- In a run whose calls meet the condition every further call that meets it returns the bytes that
follow in the stream, and there is no error before a call asks for more than are left. -/
theorem reader_right {t : Traced} (h : Reach Starts (fun t c t' => Meets t c ∧ Calls t c t') t) :
    (∀ c, Meets t c → Answers t.rest c (call t.file c).1) ∧ (t.ended = false → t.file.lastError = 0) := by
  have hat : At t.file t.rest ∧ (t.ended = false → t.file.lastError = 0) := by
    apply h.invariant
    · rintro _ ⟨bytes, short, rfl⟩
      exact ⟨⟨le_refl 0, zero_le _, rfl⟩, fun _ => rfl⟩
    · rintro t c _ ⟨hat, herror⟩ ⟨hmeets, rfl⟩
      obtain ⟨hat', -, herror'⟩ := hat.call hmeets
      refine ⟨hat', fun hended => ?_⟩
      obtain ⟨hno, henough⟩ := Bool.or_eq_false_iff.mp hended
      exact (herror' (not_lt.mp (of_decide_eq_false henough))).trans (herror hno)
  exact ⟨fun c hmeets => (hat.1.call hmeets).2.1, hat.2⟩

def opened (bytes : List UInt8) : QEMUFile := ⟨[], 0, 0, bytes, fun _ => 40000⟩

/-- A byte is read after it was peeked at. -/
theorem peeked_right : (call (call (opened [7, 8]) (.peekByte 0)).2 .getByte).1 = [7] ∧
    (call (opened [7, 8]) (.peekByte 0)).2.lastError = 0 := by
  have hright := reader_right (.step (a := .peekByte 0) (.start (s := ⟨opened [7, 8], [7, 8], false⟩) ⟨_, _, rfl⟩)
    ⟨⟨.inl (by decide), fun _ h => by cases h; decide⟩, rfl⟩)
  exact ⟨hright.1 .getByte ⟨.inl (by decide), fun _ h => by cases h⟩, hright.2 rfl⟩

/-- A stream of 40000 bytes is an error when they are read at once after a byte was peeked at. -/
theorem reader_wrong : ∃ t, Reach Starts Calls t ∧ t.ended = false ∧ t.file.lastError ≠ 0 := by
  obtain ⟨bytes, hbytes⟩ : ∃ bytes : List UInt8, bytes.length = 40000 := ⟨_, length_replicate (a := 7)⟩
  have hstart : At (opened bytes) bytes := ⟨le_refl 0, zero_le _, rfl⟩
  have hpeek : At (peekByte (opened bytes) 0).2 bytes := hstart.fillBuffer.1
  have hfull : (peekByte (opened bytes) 0).2.window.length = IO_BUF_SIZE := by
    refine hstart.fillBuffer.2.trans ?_
    simp [readLen, opened, window, hbytes, IO_BUF_SIZE]
  have hrun : Reach Starts Calls ⟨opened bytes, bytes, false⟩ := .start ⟨_, _, rfl⟩
  refine ⟨_, (hrun.step (a := .peekByte 0) rfl).step (a := .getBuffer 40000) rfl, ?_, ?_⟩
  · simp [Call.asked, Call.consumed, hbytes]
  · dsimp only [call]
    exact getBuffer_full hpeek hfull (by decide)

end GemDroid.Savevm.FileReader
