import Mathlib.Data.List.Basic

/-! Dial numbers as binary coded digits (`telephony/gsm.c`).

`gsm_bcdnum_to_ascii` does not count the digits down, so that it can only be left at a filling
digit, and only if it is asked for one digit. `gsm_bcdnum_from_ascii` stores a pair of digits one
byte too far. -/
namespace GemDroid.Sms.DialNumber
open Function

abbrev Memory : Type := Nat → UInt8

def digitChars : List UInt8 := [0x30, 0x31, 0x32, 0x33, 0x34, 0x35, 0x36, 0x37, 0x38, 0x39, 0x2a, 0x23, 0x2c, 0x4e]

def toAscii (bcd : Memory) (count : Nat) : Nat → Nat → Option (List UInt8)
  | 0, _ => none
  | fuel + 1, n =>
    if count = 0 then some []
    else
      let c := bcd (n / 2) >>> (if n % 2 = 0 then 0 else 4) &&& 0xf
      if c = 15 ∧ count = 1 then some []
      else (toAscii bcd count fuel (n + 1)).map (digitChars.getD (if 14 ≤ c then 0 else c.toNat) 0 :: ·)

/-- A character as a digit; `none` stands for the result -1. -/
def digitOf (c : UInt8) : Option Nat :=
  if c = 0x2a then some 10
  else if c = 0x23 then some 11
  else if c = 0x2c then some 12
  else if c = 0x4e then some 13
  else if c - 0x30 < 10 then some (c - 0x30).toNat
  else none

/-- The loop of `gsm_bcdnum_from_ascii`, with the number of digits so far. -/
def fromAscii : List UInt8 → Nat → Nat → Memory → Option (Nat × Memory)
  | [], result, phase, dst =>
    some (result, if result % 2 = 1 then update dst (result / 2) (UInt8.ofNat (phase ||| 0xf0)) else dst)
  | ch :: ascii, result, phase, dst =>
    match digitOf ch with
    | none => none
    | some c =>
      let phase := phase <<< 4 ||| c
      if phase &&& 0x100 ≠ 0 then
        fromAscii ascii (result + 1) 1 (update dst ((result + 1) / 2) (UInt8.ofNat phase))
      else fromAscii ascii (result + 1) phase dst

/-- The digits go to the first bytes of `dst` and are read back from there. -/
def RoundTrips (ascii : List UInt8) : Prop :=
  ∀ dst, ∃ count dst', fromAscii ascii 0 1 dst = some (count, dst') ∧ (∀ i, (ascii.length + 1) / 2 ≤ i → dst' i = dst i) ∧
    ∃ fuel, toAscii dst' count fuel 0 = some ascii

theorem toAscii_endless (bcd : Memory) {count : Nat} (h : 1 < count) (fuel n : Nat) : toAscii bcd count fuel n = none := by
  induction fuel generalizing n with
  | zero => rfl
  | succ fuel ih =>
    rw [toAscii, if_neg (by omega)]
    simp [show count ≠ 1 by omega, ih]

theorem fromAscii_count {ascii : List UInt8} {result phase count : Nat} {dst dst' : Memory}
    (h : fromAscii ascii result phase dst = some (count, dst')) : count = result + ascii.length := by
  induction ascii generalizing result phase dst with
  | nil => exact (congrArg Prod.fst (Option.some.inj h)).symm
  | cons ch ascii ih =>
    rw [fromAscii] at h
    cases hdigit : digitOf ch with
    | none => rw [hdigit] at h; cases h
    | some c =>
      rw [hdigit] at h
      dsimp only at h
      rw [List.length_cons]
      split at h
      · have := ih h
        omega
      · have := ih h
        omega

theorem roundTrips_single : ∀ ch ∈ digitChars, RoundTrips [ch] := by
  have hall : ∀ ch ∈ digitChars, ∃ c < 14, digitOf ch = some c ∧ (1 <<< 4 ||| c) &&& 0x100 = 0 ∧
      toAscii (fun _ => UInt8.ofNat (1 <<< 4 ||| c ||| 0xf0)) 1 2 0 = some [ch] := by decide +kernel
  intro ch hch dst
  obtain ⟨c, -, hdigit, hphase, hread⟩ := hall ch hch
  refine ⟨1, update dst 0 (UInt8.ofNat (1 <<< 4 ||| c ||| 0xf0)), ?_, ?_, 2, hread⟩
  · simp only [fromAscii, hdigit, hphase]
    rfl
  · intro i hi
    exact update_of_ne (by simp at hi; omega) _ _

/-- A dial string is read back as it was written exactly if it has at most one character. -/
theorem roundTrips_iff (ascii : List UInt8) (h : ∀ ch ∈ ascii, ch ∈ digitChars) : RoundTrips ascii ↔ ascii.length ≤ 1 := by
  constructor
  · intro htrips
    by_contra hlong
    obtain ⟨count, dst', hfrom, -, fuel, hto⟩ := htrips fun _ => 0
    have hcount := fromAscii_count hfrom
    rw [toAscii_endless dst' (by omega)] at hto
    cases hto
  · intro hshort
    obtain _ | ⟨ch, _ | ⟨ch', ascii⟩⟩ := ascii
    · exact fun dst => ⟨0, dst, rfl, fun _ _ => rfl, 1, rfl⟩
    · exact roundTrips_single ch (h ch (List.mem_singleton.2 rfl))
    · simp at hshort

/-- The string `*`. -/
theorem star_roundTrips : RoundTrips [0x2a] ↔ [(0x2a : UInt8)].length ≤ 1 := roundTrips_iff _ (by decide +kernel)

/-- The string `12` is not read back. -/
theorem pair_not_read : (∀ ch ∈ [(0x31 : UInt8), 0x32], ch ∈ digitChars) ∧ ¬ RoundTrips [0x31, 0x32] := by
  refine ⟨by decide +kernel, fun htrips => ?_⟩
  obtain ⟨count, dst', hfrom, -, fuel, hto⟩ := htrips fun _ => 0
  rw [toAscii_endless dst' (by rw [fromAscii_count hfrom]; decide)] at hto
  cases hto

end GemDroid.Sms.DialNumber
