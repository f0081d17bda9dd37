import GemDroid.Lib.Blocks
import Mathlib.Tactic.IntervalCases

/-! Texts of `telephony/gsm.c`: UTF-8, the 7-bit alphabet and UCS2.

All conversions read a text with `utf8_next`, one character after the other. In a text that
`utf8_check` accepts, a character is its first byte and the bytes it announces, and `utf8_next`
never sees another number of them. -/
namespace GemDroid.Sms
open Lib List Option Blocks

variable {cs : List (List UInt8)} {c : Int}

/-! ### UTF-8 -/

/-- A byte behind the first one of a character. -/
def isTail (b : UInt8) : Bool := b &&& 0xc0 == 0x80

def firstBits (c : UInt8) : Int :=
  if c &&& 0xe0 = 0xc0 then (c &&& 0x1f).toNat
  else if c &&& 0xf0 = 0xe0 then (c &&& 0x0f).toNat
  else (c &&& 0x07).toNat

/-- The inner loop of `utf8_next`; the code is an `int`. -/
def utf8Tail (c : Int) : List UInt8 → Int × List UInt8
  | [] => (c, [])
  | b :: p => if isTail b then utf8Tail ((c * 64 + (b &&& 0x3f).toNat).bmod (2 ^ 32)) p else (c, b :: p)

/-- `utf8_next`: the code of the first character, and what is behind it. -/
def utf8Next : List UInt8 → Option (Int × List UInt8)
  | [] => none
  | c :: p => some (if 128 ≤ c then utf8Tail (firstBits c) p else (c.toNat, p))

/-- The number of bytes that the first byte of a character announces. -/
def tailLength (c : UInt8) : Option Nat :=
  if c < 128 then some 0
  else if c &&& 0xe0 = 0xc0 then some 1
  else if c &&& 0xf0 = 0xe0 then some 2
  else if c &&& 0xf8 = 0xf0 then some 3
  else none

/-- The loops of `utf8_check`, with the number of bytes that are still to come in a character. -/
def checkFrom : Nat → List UInt8 → Bool
  | n, [] => n == 0
  | 0, c :: p =>
    match tailLength c with
    | none => false
    | some len => checkFrom len p
  | n + 1, b :: p => isTail b && checkFrom n p

def utf8Check (utf8 : List UInt8) : Bool := checkFrom 0 utf8

/-- A loop over the characters of a text. It ends at the end of the text, at a negative code, and
where `step` has no result. -/
def scan {σ : Type} (step : σ → Int → Option σ) : Nat → σ → List UInt8 → σ × List UInt8
  | 0, s, p => (s, p)
  | fuel + 1, s, p =>
    match utf8Next p with
    | none => (s, p)
    | some (c, q) =>
      if c < 0 then (s, p)
      else
        match step s c with
        | none => (s, p)
        | some s => scan step fuel s q

/-! ### The alphabet -/

def gsm7bitsToUnicode : List Nat := [
  0x40, 0xa3, 0x24, 0xa5, 0xe8, 0xe9, 0xf9, 0xec, 0xf2, 0xc7, 0x0a, 0xd8, 0xf8, 0x0d, 0xc5, 0xe5,
  0x394, 0x5f, 0x3a6, 0x393, 0x39b, 0x3a9, 0x3a0, 0x3a8, 0x3a3, 0x398, 0x39e, 0, 0xc6, 0xe6, 0xdf, 0xc9,
  0x20, 0x21, 0x22, 0x23, 0xa4, 0x25, 0x26, 0x27, 0x28, 0x29, 0x2a, 0x2b, 0x2c, 0x2d, 0x2e, 0x2f,
  0x30, 0x31, 0x32, 0x33, 0x34, 0x35, 0x36, 0x37, 0x38, 0x39, 0x3a, 0x3b, 0x3c, 0x3d, 0x3e, 0x3f,
  0xa1, 0x41, 0x42, 0x43, 0x44, 0x45, 0x46, 0x47, 0x48, 0x49, 0x4a, 0x4b, 0x4c, 0x4d, 0x4e, 0x4f,
  0x50, 0x51, 0x52, 0x53, 0x54, 0x55, 0x56, 0x57, 0x58, 0x59, 0x5a, 0xc4, 0xd6, 0x147, 0xdc, 0xa7,
  0xbf, 0x61, 0x62, 0x63, 0x64, 0x65, 0x66, 0x67, 0x68, 0x69, 0x6a, 0x6b, 0x6c, 0x6d, 0x6e, 0x6f,
  0x70, 0x71, 0x72, 0x73, 0x74, 0x75, 0x76, 0x77, 0x78, 0x79, 0x7a, 0xe4, 0xf6, 0xf1, 0xfc, 0xe0]

def gsm7bitsExtendToUnicode : List Nat := [
  0, 0, 0, 0, 0, 0, 0, 0, 0, 0, 0x0c, 0, 0, 0, 0, 0,
  0, 0, 0, 0, 0x5e, 0, 0, 0, 0, 0, 0, 0, 0, 0, 0, 0,
  0, 0, 0, 0, 0, 0, 0, 0, 0x7b, 0x7d, 0, 0, 0, 0, 0, 0x5c,
  0, 0, 0, 0, 0, 0, 0, 0, 0, 0, 0, 0, 0x5b, 0x7e, 0x5d, 0,
  0x7c, 0, 0, 0, 0, 0, 0, 0, 0, 0, 0, 0, 0, 0, 0, 0,
  0, 0, 0, 0, 0, 0, 0, 0, 0, 0, 0, 0, 0, 0, 0, 0,
  0, 0, 0, 0, 0, 0x20ac, 0, 0, 0, 0, 0, 0, 0, 0, 0, 0,
  0, 0, 0, 0, 0, 0, 0, 0, 0, 0, 0, 0, 0, 0, 0, 0]

def gsm7bitsEscape : Nat := 0x1b

def unicharToGsm7 (unicode : Int) : Option Nat := gsm7bitsToUnicode.findIdx? fun u => (u : Int) == unicode

def unicharToGsm7Extend (unichar : Int) : Option Nat := gsm7bitsExtendToUnicode.findIdx? fun u => (u : Int) == unichar

def unicharToGsm7Count (unicode : Int) : Nat :=
  if (unicharToGsm7 unicode).isSome then 1
  else if (unicharToGsm7Extend unicode).isSome then 2
  else 0

/-- The septets of a character in a message, where a space stands for those that have none. -/
def septets (c : Int) : Nat := if unicharToGsm7Count c = 0 then 1 else unicharToGsm7Count c

/-- The loop of `utf8_check_gsm7`. -/
def checkGsm7 : Nat → List UInt8 → Bool
  | 0, _ => true
  | fuel + 1, p =>
    match utf8Next p with
    | none => true
    | some (c, q) => if unicharToGsm7Count c = 0 then false else checkGsm7 fuel q

def utf8CheckGsm7 (utf8 : List UInt8) : Bool := checkGsm7 utf8.length utf8

def utf8ToGsm7Count (utf8 : List UInt8) : Nat := (scan (fun r c => some (r + septets c)) utf8.length 0 utf8).1

def utf8SkipGsm7 (utf8 : List UInt8) (gsm7len : Nat) : List UInt8 :=
  (scan (fun n c => if 0 < n ∧ septets c ≤ n then some (n - septets c) else none) utf8.length gsm7len utf8).2

def utf8SkipUcs2 (utf8 : List UInt8) (ucs2len : Nat) : List UInt8 :=
  (scan (fun n _ => if 2 ≤ n then some (n - 2) else none) utf8.length ucs2len utf8).2

/-- `utf8_to_ucs2` without a buffer: twice the number of characters, before it is halved. -/
def utf8ToUcs2Bytes (utf8 : List UInt8) : Nat := (scan (fun r _ => some (r + 2)) utf8.length 0 utf8).1

/-- `utf8_to_ucs2`: the bytes it writes. -/
def utf8ToUcs2 (utf8 : List UInt8) : List UInt8 :=
  (scan (fun out c => some (out ++ [UInt8.ofNat (c.toNat / 256), UInt8.ofNat c.toNat])) utf8.length [] utf8).1

/-- A `BWriterRec`: the bytes that are written, and the bits of the next one. -/
structure BWriter where
  dst : List UInt8
  pad : Nat
  bits : Nat
  deriving DecidableEq, Repr

def bwriterInit (start : Nat) : BWriter := ⟨List.replicate (start / 8) 0, 0, start % 8⟩

def bwriterAdd7 (writer : BWriter) (value : Nat) : BWriter :=
  let pad := writer.pad ||| value <<< writer.bits
  let bits := writer.bits + 7
  if 8 ≤ bits then ⟨writer.dst ++ [UInt8.ofNat pad], pad >>> 8, bits - 8⟩ else ⟨writer.dst, pad, bits⟩

def bwriterDone (writer : BWriter) : List UInt8 :=
  if 0 < writer.bits then writer.dst ++ [UInt8.ofNat writer.pad] else writer.dst

def writeChar (writer : BWriter) (c : Int) : BWriter :=
  match unicharToGsm7 c with
  | some nn => bwriterAdd7 writer nn
  | none =>
    match unicharToGsm7Extend c with
    | some nn => bwriterAdd7 (bwriterAdd7 writer gsm7bitsEscape) nn
    | none => bwriterAdd7 writer 0x20

/-- `utf8_to_gsm7`: the bytes it writes from `offset` bits on into a buffer of zeros. -/
def utf8ToGsm7 (utf8 : List UInt8) (offset : Nat) : List UInt8 :=
  bwriterDone (scan (fun writer c => some (writeChar writer c)) utf8.length (bwriterInit offset) utf8).1

/-! ### Texts that are accepted -/

def IsChar : List UInt8 → Prop
  | [] => False
  | c :: t => tailLength c = some t.length ∧ ∀ b ∈ t, isTail b = true

def code (ch : List UInt8) : Int :=
  match utf8Next ch with
  | none => -1
  | some (c, _) => c

theorem ofNat_toNat_byte {p : UInt8 → Prop} (h : ∀ n < 256, p (UInt8.ofNat n)) (c : UInt8) : p c := by
  have := h c.toNat (UInt8.toNat_lt c)
  rwa [UInt8.ofNat_toNat] at this

theorem isTail_first (c : UInt8) : (tailLength c).isSome = true → isTail c = false := by
  revert c
  exact ofNat_toNat_byte (by decide +kernel)

theorem firstBits_bound (c : UInt8) : 0 ≤ firstBits c ∧ firstBits c < 32 := by
  revert c
  exact ofNat_toNat_byte (by decide +kernel)

theorem tailLength_le (c : UInt8) : (tailLength c).getD 0 ≤ 3 := by
  revert c
  exact ofNat_toNat_byte (by decide +kernel)

theorem tailBits_lt (b : UInt8) : (b &&& 0x3f).toNat < 64 := by
  revert b
  exact ofNat_toNat_byte (by decide +kernel)

theorem utf8Tail_all {t rest : List UInt8} {k : Nat} (hall : ∀ b ∈ t, isTail b = true)
    (hrest : ∀ b, rest.head? = some b → isTail b = false) (hc : 0 ≤ c) (hbound : c < 32 * 64 ^ k)
    (hlen : k + t.length ≤ 3) : utf8Tail c (t ++ rest) = ((utf8Tail c t).1, rest) ∧ 0 ≤ (utf8Tail c t).1 := by
  induction t generalizing c k with
  | nil =>
    refine ⟨?_, hc⟩
    cases rest with
    | nil => rfl
    | cons b rest => simp [utf8Tail, hrest b rfl]
  | cons b t ih =>
    have hlow := tailBits_lt b
    have hle : k + 1 ≤ 3 := by
      rw [length_cons] at hlen
      omega
    have hmax : (64 : Int) ^ (k + 1) ≤ 64 ^ 3 := pow_le_pow_right₀ (by decide) hle
    have hsmall : c * 64 + ((b &&& 0x3f).toNat : Int) < 32 * 64 ^ (k + 1) := by omega
    have hmod : (c * 64 + ((b &&& 0x3f).toNat : Int)).bmod (2 ^ 32) = c * 64 + ((b &&& 0x3f).toNat : Int) :=
      Int.bmod_eq_of_le (by omega) (by omega)
    simp only [utf8Tail, cons_append, hall b (mem_cons_self ..), if_true, hmod]
    exact ih (forall_mem_cons.1 hall).2 (by omega) hsmall (by
      rw [length_cons] at hlen
      omega)

variable {ch : List UInt8}

theorem utf8Next_char {rest : List UInt8} (h : IsChar ch) (hrest : ∀ b, rest.head? = some b → isTail b = false) :
    utf8Next (ch ++ rest) = some (code ch, rest) ∧ 0 ≤ code ch := by
  cases ch with
  | nil => exact h.elim
  | cons c t =>
    obtain ⟨hlen, hall⟩ := h
    by_cases hc : 128 ≤ c
    · have hbits := firstBits_bound c
      have hle := tailLength_le c
      rw [hlen, getD_some] at hle
      have htail := utf8Tail_all (k := 0) hall hrest hbits.1 (by simpa using hbits.2) (by omega)
      simpa [code, utf8Next, hc] using htail
    have hzero : t = [] := by
      rw [tailLength, if_pos (by simpa using hc)] at hlen
      exact length_eq_zero_iff.1 (some.inj hlen).symm
    subst hzero
    simp [code, utf8Next, hc]

theorem ne_nil_of_isChar (h : IsChar ch) : ch ≠ [] := by
  rintro rfl
  exact h

def Chars (cs : List (List UInt8)) : Prop := ∀ ch ∈ cs, IsChar ch

theorem Chars.tail (h : Chars (ch :: cs)) : Chars cs :=
  (forall_mem_cons.1 h).2

theorem Chars.head_flatten (h : Chars cs) (b : UInt8) (hb : cs.flatten.head? = some b) : isTail b = false := by
  cases cs with
  | nil => cases hb
  | cons ch cs =>
    have hch := h ch (mem_cons_self ..)
    cases ch with
    | nil => exact hch.elim
    | cons c t =>
      obtain rfl : c = b := some.inj hb
      exact isTail_first c (by rw [hch.1]; rfl)

theorem Chars.flatten_eq_nil (h : Chars cs) (hnil : cs.flatten = []) : cs = [] := by
  cases cs with
  | nil => rfl
  | cons ch cs =>
    rw [flatten_cons, append_eq_nil_iff] at hnil
    exact absurd hnil.1 (ne_nil_of_isChar (h ch (mem_cons_self ..)))

theorem checkFrom_chars {n : Nat} {text : List UInt8} (h : checkFrom n text = true) :
    ∃ t cs, text = t ++ cs.flatten ∧ t.length = n ∧ (∀ b ∈ t, isTail b = true) ∧ Chars cs := by
  induction text generalizing n with
  | nil =>
    refine ⟨[], [], rfl, ?_, nofun, nofun⟩
    rw [checkFrom, beq_iff_eq] at h
    exact h.symm
  | cons b p ih =>
    cases n with
    | zero =>
      rw [checkFrom] at h
      split at h
      · cases h
      next len hlen =>
        obtain ⟨t, cs, rfl, rfl, htail, hcs⟩ := ih h
        refine ⟨[], (b :: t) :: cs, rfl, rfl, nofun, ?_⟩
        intro ch hch
        obtain rfl | hch := mem_cons.1 hch
        · exact ⟨hlen, htail⟩
        · exact hcs ch hch
    | succ n =>
      rw [checkFrom, Bool.and_eq_true] at h
      obtain ⟨t, cs, rfl, rfl, htail, hcs⟩ := ih h.2
      refine ⟨b :: t, cs, rfl, rfl, ?_, hcs⟩
      intro x hx
      obtain rfl | hx := mem_cons.1 hx
      · exact h.1
      · exact htail x hx

theorem exists_chars {utf8 : List UInt8} (h : utf8Check utf8 = true) : ∃ cs, utf8 = cs.flatten ∧ Chars cs := by
  obtain ⟨t, cs, rfl, hlen, -, hcs⟩ := checkFrom_chars h
  obtain rfl := length_eq_zero_iff.1 hlen
  exact ⟨cs, rfl, hcs⟩

/-- The loop over a list of characters. -/
def steps {σ : Type} (step : σ → Int → Option σ) : σ → List (List UInt8) → σ × List (List UInt8)
  | s, [] => (s, [])
  | s, ch :: cs =>
    match step s (code ch) with
    | none => (s, ch :: cs)
    | some s => steps step s cs

theorem scan_flatten {σ : Type} {step : σ → Int → Option σ} (h : Chars cs) {fuel : Nat}
    (hfuel : cs.flatten.length ≤ fuel) (s : σ) :
    scan step fuel s cs.flatten = ((steps step s cs).1, (steps step s cs).2.flatten) := by
  induction cs generalizing s fuel with
  | nil => cases fuel <;> rfl
  | cons ch cs ih =>
    have hch := h ch (mem_cons_self ..)
    obtain ⟨hnext, hcode⟩ := utf8Next_char hch h.tail.head_flatten
    have hpos : 0 < ch.length := length_pos_of_ne_nil (ne_nil_of_isChar hch)
    rw [flatten_cons, length_append] at hfuel
    cases fuel with
    | zero => omega
    | succ fuel =>
      rw [flatten_cons, scan, hnext, steps]
      simp only [if_neg (Int.not_lt.2 hcode)]
      cases step s (code ch) with
      | none => rfl
      | some s' => exact ih h.tail (by omega) s'

def charSeptets (ch : List UInt8) : Nat := septets (code ch)

theorem septets_pos (c : Int) : 0 < septets c := by
  rw [septets]
  split <;> omega

section Counts
variable (w : Int → Nat)

theorem steps_total (r : Nat) :
    (steps (fun r c => some (r + w c)) r cs).1 = r + weight (fun ch => w (code ch)) cs := by
  induction cs generalizing r with
  | nil => rfl
  | cons ch cs ih => rw [steps, ih, weight_cons, add_assoc]

theorem steps_skip {step : Nat → Int → Option Nat}
    (hstep : ∀ n c, step n c = if w c ≤ n then some (n - w c) else none) (n : Nat) :
    (steps step n cs).2 = (fit (fun ch => w (code ch)) n cs).2 := by
  induction cs generalizing n with
  | nil => rfl
  | cons ch cs ih =>
    rw [steps, fit, hstep]
    by_cases hle : w (code ch) ≤ n
    · simp only [if_pos hle, ih]
    · simp only [if_neg hle]

section
variable (h : Chars cs)
include h

theorem utf8ToGsm7Count_flatten : utf8ToGsm7Count cs.flatten = weight charSeptets cs := by
  rw [utf8ToGsm7Count, scan_flatten h le_rfl, steps_total, zero_add]
  rfl

theorem utf8ToUcs2Bytes_flatten : utf8ToUcs2Bytes cs.flatten = weight (fun _ => 2) cs := by
  rw [utf8ToUcs2Bytes, scan_flatten h le_rfl, steps_total (fun _ => 2), zero_add]

theorem utf8SkipGsm7_flatten (n : Nat) : utf8SkipGsm7 cs.flatten n = (fit charSeptets n cs).2.flatten := by
  rw [utf8SkipGsm7, scan_flatten h le_rfl, steps_skip septets]
  · rfl
  · intro n c
    have := septets_pos c
    by_cases hle : septets c ≤ n
    · rw [if_pos ⟨by omega, hle⟩, if_pos hle]
    · rw [if_neg fun hand => hle hand.2, if_neg hle]

theorem utf8SkipUcs2_flatten (n : Nat) : utf8SkipUcs2 cs.flatten n = (fit (fun _ => 2) n cs).2.flatten := by
  rw [utf8SkipUcs2, scan_flatten h le_rfl, steps_skip (fun _ => 2) fun _ _ => rfl]

end

end Counts

/-! ### Texts of any bytes -/

theorem utf8Tail_length (c : Int) (p : List UInt8) : (utf8Tail c p).2.length ≤ p.length := by
  induction p generalizing c with
  | nil => exact le_rfl
  | cons b p ih =>
    rw [utf8Tail]
    split
    · exact Nat.le_succ_of_le (ih _)
    · exact le_rfl

theorem utf8Next_length {p q : List UInt8} (h : utf8Next p = some (c, q)) : q.length < p.length := by
  cases p with
  | nil => cases h
  | cons b p =>
    simp only [utf8Next, some.injEq] at h
    split at h
    · have := utf8Tail_length (firstBits b) p
      rw [h] at this
      exact Nat.lt_succ_of_le this
    · cases h
      exact Nat.lt_succ_self _

theorem scan_total_le {w : Int → Nat} (hw : ∀ c, w c ≤ 2) (fuel r : Nat) (p : List UInt8) :
    (scan (fun r c => some (r + w c)) fuel r p).1 ≤ r + 2 * p.length := by
  induction fuel generalizing r p with
  | zero => exact Nat.le_add_right ..
  | succ fuel ih =>
    rw [scan]
    split
    · exact Nat.le_add_right ..
    next c q hnext =>
      have hlen := utf8Next_length hnext
      have hc := hw c
      have hrest := ih (r + w c) q
      split
      · exact Nat.le_add_right ..
      · simp only
        omega

theorem septets_le (c : Int) : septets c ≤ 2 := by
  simp only [septets, unicharToGsm7Count]
  split_ifs <;> omega

theorem utf8ToGsm7Count_le (utf8 : List UInt8) : utf8ToGsm7Count utf8 ≤ 2 * utf8.length := by
  have := scan_total_le septets_le utf8.length 0 utf8
  rwa [zero_add] at this

theorem utf8ToUcs2Bytes_le (utf8 : List UInt8) : utf8ToUcs2Bytes utf8 ≤ 2 * utf8.length := by
  have := scan_total_le (w := fun _ => 2) (fun _ => Nat.le_refl 2) utf8.length 0 utf8
  rwa [zero_add] at this

end GemDroid.Sms
