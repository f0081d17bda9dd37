import GemDroid.Lib.BigEndian
import Mathlib.Data.List.GetD
import Mathlib.Data.List.TakeWhile

/-! The backing file's name and format in the header of an image, of `block/qcow2.c`.

`qcow2_update_ext_header` writes a format extension and the name behind the fixed header, and
`qcow_open` reads them back. The reader has limits of its own. Without a name it reads extensions
up to the end of the cluster, so also what an older header has left there. -/
namespace GemDroid.Qcow2.ExtHeader
open Lib List Option

/-- The bytes of an image file. -/
structure File where
  size : Nat
  byte : Nat → Nat

open File

/-- `bdrv_pread`; a short read is an error to every caller. -/
def File.pread (f : File) (offset n : Nat) : Option (List Nat) :=
  if offset + n ≤ f.size then some ((range n).map fun i => f.byte (offset + i)) else none

def File.pwrite (f : File) (offset : Nat) (buf : List Nat) : File where
  size := max f.size (offset + buf.length)
  byte i := if offset ≤ i ∧ i < offset + buf.length then buf.getD (i - offset) 0 else f.byte i

def magicBackingFormat : Nat := 0xE2792ACA

inductive Errno
  | einval
  | enospc
  | eio

def align8 (n : Nat) : Nat := (n + 7) / 8 * 8

/-- `ext_backing_fmt`, the format and the padding. -/
def formatExt (fmt : List Nat) : List Nat :=
  putBe 4 magicBackingFormat ++ (putBe 4 fmt.length ++
    (fmt ++ replicate (align8 (8 + fmt.length) - (8 + fmt.length)) 0))

def extensions (backingFmt : Option (List Nat)) : List Nat := backingFmt.elim [] formatExt

/-- `qcow2_update_ext_header`; `fails` says whether a write fails. The fixed header has 72 bytes,
with the offset of the name at 8 and its size at 16. -/
def updateExtHeader (f : File) (clusterSize : Nat) (backingFile backingFmt : Option (List Nat))
    (fails : Bool) : Except Errno File :=
  if backingFmt ≠ none ∧ backingFile = none then .error .einval
  else if 72 + (extensions backingFmt ++ backingFile.getD []).length > clusterSize then .error .enospc
  else if fails then .error .eio
  else .ok (((f.pwrite 72 (extensions backingFmt ++ backingFile.getD [])).pwrite 8
    (putBe 8 (if backingFile = none then 0 else 72 + (extensions backingFmt).length))).pwrite 16
    (putBe 4 (backingFile.getD []).length))

def cString (buf : List Nat) : List Nat := buf.takeWhile (· ≠ 0)

def readExtensions (f : File) (endOffset offset : Nat) (fmt : List Nat) : Option (List Nat) :=
  if offset < endOffset then
    (f.pread offset 8).bind fun ext =>
      if (getBe 4 ext).1 = 0 then some fmt
      else if (getBe 4 ext).1 = magicBackingFormat then
        if (getBe 4 (getBe 4 ext).2).1 ≥ 16 then none
        else (f.pread (offset + 8) (getBe 4 (getBe 4 ext).2).1).bind fun buf =>
          readExtensions f endOffset (align8 (offset + 8 + (getBe 4 (getBe 4 ext).2).1)) (cString buf)
      else readExtensions f endOffset (align8 (offset + 8 + (getBe 4 (getBe 4 ext).2).1)) fmt
  else some fmt
termination_by endOffset - offset
decreasing_by all_goals unfold align8; omega

/-- The part of `qcow_open` that reads the extensions and the name. -/
def openHeader (f : File) (clusterSize : Nat) : Option (List Nat × List Nat) :=
  (f.pread 8 8).bind fun offset => (f.pread 16 4).bind fun size =>
    if (getBe 8 offset).1 = 0 then (readExtensions f clusterSize 72 []).map fun fmt => ([], fmt)
    else (readExtensions f (getBe 8 offset).1 72 []).bind fun fmt =>
      (f.pread (getBe 8 offset).1 (min (getBe 4 size).1 1023)).map fun buf => (cString buf, fmt)

section Reading
variable {f : File} {o k n : Nat} {buf : List Nat}

theorem pread_pwrite (h : k + n ≤ buf.length) : (f.pwrite o buf).pread (o + k) n = some ((buf.drop k).take n) := by
  rw [pread, if_pos (by simp only [pwrite]; omega)]
  refine congrArg some (ext_getElem (by simp; omega) fun i h₁ h₂ => ?_)
  simp only [length_map, length_range] at h₁
  simp only [pwrite, getElem_map, getElem_range, getElem_take, getElem_drop]
  rw [if_pos (by omega), getD_eq_getElem _ _ (by omega)]
  congr 1
  omega

theorem pread_pwrite_self (h : buf.length = n) : (f.pwrite o buf).pread o n = some buf := by
  have := pread_pwrite (f := f) (o := o) (show 0 + n ≤ buf.length by omega)
  rwa [add_zero, drop_zero, take_of_length_le (by omega)] at this

theorem pread_pwrite_other (h : k + n ≤ o ∨ o + buf.length ≤ k) (hs : o + buf.length ≤ f.size) :
    (f.pwrite o buf).pread k n = f.pread k n := by
  have hsize : (f.pwrite o buf).size = f.size := max_eq_left hs
  rw [pread, pread, hsize]
  refine if_congr Iff.rfl (congrArg some (map_congr_left fun i hi => ?_)) rfl
  have hi := mem_range.1 hi
  simp only [pwrite]
  rw [if_neg (by omega)]

theorem length_pread (h : f.pread o n = some buf) : buf.length = n := by
  rw [pread] at h
  split at h <;> cases h
  simp

theorem length_putBe (n v : Nat) : (putBe n v).length = n := by
  induction n with
  | zero => rfl
  | succ n ih => rw [putBe, length_cons, ih]

theorem getBe_put (n v : Nat) (h : v < 256 ^ n) : (getBe n (putBe n v)).1 = v := by
  have := getBe_putBe n v []
  rw [append_nil] at this
  rw [this, Nat.mod_eq_of_lt h]

theorem cString_eq (h : ∀ b ∈ buf, b ≠ 0) : cString buf = buf := takeWhile_eq_self_iff.2 (by simpa using h)

theorem length_formatExt (fmt : List Nat) : (formatExt fmt).length = align8 (8 + fmt.length) := by
  have : 8 + fmt.length ≤ align8 (8 + fmt.length) := by unfold align8; omega
  simp only [formatExt, length_append, length_putBe, length_replicate]
  omega

/-- Only what is behind the offset is read. -/
theorem readExtensions_congr {g : File} (h : ∀ k ≥ o, ∀ n, g.pread k n = f.pread k n) (stop : Nat) (fmt : List Nat) :
    readExtensions g stop o fmt = readExtensions f stop o fmt := by
  induction hleft : stop - o using Nat.strong_induction_on generalizing o fmt with
  | _ left ih =>
    have hnext : ∀ len, o < align8 (o + 8 + len) := fun len => by unfold align8; omega
    rw [readExtensions, readExtensions, h o le_rfl]
    split
    next hlt =>
      refine congrArg _ (funext fun ext => ?_)
      have hrec : ∀ len fmt, readExtensions g stop (align8 (o + 8 + len)) fmt =
          readExtensions f stop (align8 (o + 8 + len)) fmt := fun len fmt =>
        ih (stop - align8 (o + 8 + len)) (by have := hnext len; omega) (fun k hk => h k (by have := hnext len; omega)) fmt rfl
      simp only [hrec, h (o + 8) (by omega)]
    · rfl

section Format
variable {fmt : List Nat} (h : ∀ k n, k + n ≤ (formatExt fmt).length →
    f.pread (72 + k) n = some (((formatExt fmt).drop k).take n))
include h

theorem pread_formatExt : f.pread 72 8 = some (putBe 4 magicBackingFormat ++ putBe 4 fmt.length) := by
  have hsize := length_formatExt fmt
  have hle : 8 + fmt.length ≤ align8 (8 + fmt.length) := by unfold align8; omega
  rw [← add_zero 72, h 0 8 (by omega), formatExt, drop_zero, ← append_assoc, take_left' (by simp [length_putBe])]

/-- The format extension is read back if the reader has room for it. -/
theorem readExtensions_format (hlen : fmt.length < 2 ^ 32) (hz : ∀ b ∈ fmt, b ≠ 0) :
    readExtensions f (72 + (formatExt fmt).length) 72 [] = if fmt.length < 16 then some fmt else none := by
  have hsize := length_formatExt fmt
  have hle : 8 + fmt.length ≤ align8 (8 + fmt.length) := by unfold align8; omega
  have hfmt : f.pread 80 fmt.length = some fmt := by
    rw [show 80 = 72 + 8 from rfl, h 8 fmt.length (by omega), formatExt, ← append_assoc,
      drop_left' (by simp [length_putBe]), take_left]
  have hend : align8 (72 + 8 + fmt.length) = 72 + (formatExt fmt).length := by
    rw [hsize]
    unfold align8
    omega
  have hl : (getBe 4 (putBe 4 fmt.length)).1 = fmt.length := getBe_put _ _ (by omega)
  rw [readExtensions, if_pos (by omega), pread_formatExt h, bind_some, getBe_putBe]
  dsimp only
  rw [hl, if_neg (by decide), if_pos (by decide)]
  by_cases hlong : fmt.length < 16
  · rw [if_neg (by omega), if_pos hlong, hfmt, bind_some, hend, readExtensions, if_neg (lt_irrefl _), cString_eq hz]
  · rw [if_pos (by omega), if_neg hlong]

end Format

end Reading

/-- The reader has room for the name and the format. Without a name, what an older header has left
behind the fixed one can be read as extensions, and leaves no format. -/
def Meets (f : File) (clusterSize : Nat) : Option (List Nat) → Option (List Nat) → Prop
  | some name, fmt => name.length ≤ 1023 ∧ (fmt.getD []).length < 16
  | none, _ => readExtensions f clusterSize 72 [] = some []

def blank : File := ⟨512, fun _ => 0⟩

end GemDroid.Qcow2.ExtHeader
