import GemDroid.Sms.Deliver

/-! Reading messages (`telephony/sms.c`).

A cursor is the list of bytes from it to the end of the message. Functions that read into a record
of their caller, or into a rope on the stack, are given what lies there before. -/
namespace GemDroid.Sms

variable {cur text : List UInt8} {utf8len result : Int} {udh : Bool}

/-- What a call can run into: an access behind the end of a message or an array, the use of a pointer
that nobody has set, a loop that does not end, or an `int` that overflows. -/
inductive Fault where
  | outOfBounds
  | wildPointer
  | endless
  | overflow
  deriving DecidableEq, Repr

/-! ### Addresses and time stamps -/

/-- The loop of `sms_address_from_str` over the digits, with the number of digits so far. -/
def digitsFromStr : List UInt8 → Nat → Vector UInt8 16 → Option (Nat × Vector UInt8 16)
  | [], len, data => some (len, data)
  | ch :: src, len, data =>
    let c := ch - 0x30
    if h : c < 10 ∧ len / 2 < 16 then
      digitsFromStr src (len + 1) (data.set (len / 2) (data.get ⟨len / 2, h.2⟩ ||| c <<< (if len % 2 = 0 then 0 else 4)))
    else none

def smsAddressFromStr (src : List UInt8) : Option SmsAddress :=
  let digits := if src.head? = some 0x2b then src.tail else src
  let toa := if src.head? = some 0x2b then 0x91 else 0x81
  if digits = [] then none
  else
    (digitsFromStr digits 0 (Vector.replicate 16 0)).map fun (len, data) =>
      ⟨UInt8.ofNat len, toa, if h : len % 2 = 1 ∧ len / 2 < 16 then data.set (len / 2) (data.get ⟨len / 2, h.2⟩ ||| 0xf0) h.2
        else data⟩

/-- The loop of `sms_get_sc_address` for `n` more bytes: whether it is right, `2 * dlen + adjust`, and
the digits. -/
def scDigits (cur : List UInt8) : Nat → Nat → Nat → Vector UInt8 16 → Bool × Nat × Vector UInt8 16
  | 0, dlen, adjust, data => (true, 2 * dlen + adjust, data)
  | n + 1, dlen, _, data =>
    let c := cur.getD dlen 0
    if h : dlen < 16 then
      if (0xe : UInt8) ≤ c &&& 0xf then (true, 2 * dlen, data)
      else if (0xe : UInt8) ≤ c >>> 4 then (true, 2 * dlen + 1, data.set dlen c)
      else scDigits cur n (dlen + 1) 1 (data.set dlen c)
    else (false, 2 * dlen, data)

def smsGetScAddress (address : SmsAddress) : List UInt8 → Option (SmsAddress × List UInt8)
  | [] => none
  | len :: cur =>
    if len = 0 then some ({ address with len := 0, toa := 0 }, cur)
    else
      match cur with
      | [] => none
      | toa :: digits =>
        if cur.length < len.toNat then none
        else
          match scDigits digits (len.toNat - 1) 0 0 address.data with
          | (false, _, _) => none
          | (true, n, data) => some (⟨UInt8.ofNat n, toa, data⟩, digits)

def copyDigits (data : Vector UInt8 16) (src : List UInt8) : Vector UInt8 16 :=
  Vector.ofFn fun i => src.getD i (data.get i)

def smsGetAddress (address : SmsAddress) : List UInt8 → Option (SmsAddress × List UInt8)
  | [] => none
  | dlen :: cur =>
    if dlen = 0 then some ({ address with len := 0, toa := 0 }, cur)
    else
      match cur with
      | [] => none
      | toa :: digits =>
        let len := (dlen.toNat + 1) / 2
        if digits.length < len ∨ 16 < len then none
        else some (⟨dlen, toa, copyDigits address.data (digits.take len)⟩, digits.drop len)

def smsGetTimestamp (cur : List UInt8) : Option (SmsTimeStamp × List UInt8) :=
  if cur.length < 7 then none else some (Vector.ofFn fun i => cur.getD i 0, cur.drop 7)

inductive SmsCodingScheme where
  | unknown
  | gsm7
  | ucs2
  deriving DecidableEq, Repr

variable {coding : SmsCodingScheme}

def codingScheme (dataCoding : UInt8) : SmsCodingScheme :=
  if dataCoding >>> 4 = 0 ∨ dataCoding >>> 4 = 2 ∨ dataCoding >>> 4 = 3 then .gsm7
  else if dataCoding >>> 4 = 1 then
    if dataCoding = 0x10 then .gsm7 else if dataCoding = 0x11 then .ucs2 else .unknown
  else if (4 : UInt8) ≤ dataCoding >>> 4 ∧ dataCoding >>> 4 ≤ 7 then
    if dataCoding &&& 0x20 ≠ 0 then .unknown
    else if (dataCoding >>> 2) &&& 3 = 0 then .gsm7
    else if (dataCoding >>> 2) &&& 3 = 2 then .ucs2
    else .unknown
  else if dataCoding >>> 4 = 0xf then
    if dataCoding &&& 4 = 0 then .gsm7 else .unknown
  else .unknown

def smsGetCodingScheme : List UInt8 → SmsCodingScheme × List UInt8
  | [] => (.unknown, [])
  | dataCoding :: cur => (codingScheme dataCoding, cur)

/-! ### Texts -/

def utf8Write (v : Nat) : List UInt8 :=
  if v < 128 then [UInt8.ofNat v]
  else if v < 0x800 then [UInt8.ofNat (0xc0 ||| v >>> 6), UInt8.ofNat (0x80 ||| v &&& 0x3f)]
  else if v < 0x10000 then
    [UInt8.ofNat (0xe0 ||| v >>> 12), UInt8.ofNat (0x80 ||| (v >>> 6) &&& 0x3f), UInt8.ofNat (0x80 ||| v &&& 0x3f)]
  else
    [UInt8.ofNat (0xf0 ||| (v >>> 18) &&& 0x7), UInt8.ofNat (0x80 ||| (v >>> 12) &&& 0x3f),
      UInt8.ofNat (0x80 ||| (v >>> 6) &&& 0x3f), UInt8.ofNat (0x80 ||| v &&& 0x3f)]

def septetAt (src : List UInt8) (shift : Nat) : Except Fault Nat :=
  match src with
  | [] => .error .outOfBounds
  | b :: rest =>
    if 1 < shift then
      match rest with
      | [] => .error .outOfBounds
      | b' :: _ => .ok ((b'.toNat <<< (8 - shift) ||| (b.toNat >>> shift) &&& 0x7f) &&& 0x7f)
    else .ok ((b.toNat >>> shift) &&& 0x7f)

def charFromGsm7 (escaped : Bool) (c : Nat) : Bool × List UInt8 :=
  if escaped then (true, utf8Write (gsm7bitsExtendToUnicode.getD c 0))
  else if c = gsm7bitsEscape then (true, [])
  else (false, utf8Write (gsm7bitsToUnicode.getD c 0))

def fromGsm7 : Nat → Nat → Bool → List UInt8 → Except Fault (List UInt8)
  | 0, _, _, _ => .ok []
  | n + 1, shift, escaped, src =>
    match septetAt src shift with
    | .error fault => .error fault
    | .ok c =>
      let r := charFromGsm7 escaped c
      let next := if 8 ≤ shift + 7 then fromGsm7 n (shift - 1) r.1 src.tail else fromGsm7 n (shift + 7) r.1 src
      next.map (r.2 ++ ·)

def utf8FromGsm7 (src : List UInt8) (septetOffset septetCount : Nat) : Except Fault (List UInt8) :=
  fromGsm7 septetCount (septetOffset % 8) false (src.drop (septetOffset / 8))

def ucs2ToUtf8 : List UInt8 → Nat → Except Fault (List UInt8)
  | _, 0 => .ok []
  | hi :: lo :: src, n + 1 => (ucs2ToUtf8 src n).map (utf8Write (hi.toNat <<< 8 ||| lo.toNat) ++ ·)
  | _, _ + 1 => .error .outOfBounds

inductive RopeData where
  | null
  | bytes
  | wild
  deriving DecidableEq, Repr

/-- A `GsmRopeRec`, with the bytes that `data` points to; these grow as they have to. -/
structure GsmRope where
  data : RopeData
  pos : Int
  error : Int
  bytes : List UInt8
  deriving DecidableEq, Repr

variable {rope : GsmRope}

def gsmRopeInitAlloc : GsmRope := ⟨.bytes, 0, 0, []⟩

def ropeWrite (rope : GsmRope) (text : List UInt8) : Except Fault GsmRope :=
  if rope.data = .null ∨ rope.error ≠ 0 then .ok { rope with pos := rope.pos + text.length }
  else if rope.data = .wild then .error .wildPointer
  else .ok { rope with pos := rope.pos + text.length, bytes := rope.bytes.take rope.pos.toNat ++ text }

def textLength (coding : SmsCodingScheme) (len hlen : Nat) : Option Nat :=
  let header := if coding = .gsm7 then 2 * (hlen + 1) else hlen + 1
  if len < header then none else some (len - header)

def textStart (hasUdh : Bool) (coding : SmsCodingScheme) : List UInt8 → Option (Nat × List UInt8)
  | [] => none
  | len :: cur =>
    if hasUdh then
      match cur with
      | [] => none
      | hlen :: cur =>
        if cur.length < hlen.toNat then none
        else (textLength coding len.toNat hlen.toNat).map fun len => (len, cur.drop hlen.toNat)
    else some (len.toNat, cur)

def decodeText (coding : SmsCodingScheme) (len : Nat) (cur : List UInt8) : Except Fault (List UInt8) :=
  match coding with
  | .gsm7 => utf8FromGsm7 cur 0 len
  | .ucs2 => ucs2ToUtf8 cur (len / 2)
  | .unknown => .ok []

def smsGetTextUtf8 (cur : List UInt8) (hasUdh : Bool) (coding : SmsCodingScheme) (rope : GsmRope) :
    Except Fault (Option GsmRope) :=
  match textStart hasUdh coding cur with
  | none => .ok none
  | some (len, cur) =>
    match decodeText coding len cur with
    | .error fault => .error fault
    | .ok text => (ropeWrite rope text).map some

/-- The result of `smspdu_get_text_message` from the rope, and what it copies for `utf8len` bytes. In
the end `data` is freed, if there is any. -/
def ropeText (rope : GsmRope) (utf8len : Int) : Except Fault (Int × List UInt8) :=
  let n := min utf8len rope.pos
  if rope.data = .bytes then .ok (rope.pos, rope.bytes.take n.toNat)
  else if rope.data = .null ∧ n ≤ 0 then .ok (rope.pos, [])
  else .error .wildPointer

def textMessage (cur : List UInt8) (hasUdh : Bool) (coding : SmsCodingScheme) (rope : GsmRope) (utf8len : Int) :
    Except Fault (Int × List UInt8) :=
  match smsGetTextUtf8 cur hasUdh coding rope with
  | .error fault => .error fault
  | .ok none => .ok (-1, [])
  | .ok (some rope) => ropeText rope utf8len

/-! ### Messages -/

def SmsPdu.data (pdu : SmsPdu) : List UInt8 := pdu.bytes.drop pdu.tpdu

inductive SmsPduType where
  | invalid
  | deliver
  | submit
  | statusReport
  deriving DecidableEq, Repr

def mtiType (mtiByte : Option UInt8) : SmsPduType :=
  match mtiByte with
  | none => .invalid
  | some mti =>
    if mti &&& 3 = 0 then .deliver else if mti &&& 3 = 1 then .submit else if mti &&& 3 = 2 then .statusReport else .invalid

def hasUdh (mtiByte : Option UInt8) : Bool := (mtiByte.getD 0xff) &&& 0x40 != 0

def smspduGetType (pdu : SmsPdu) : SmsPduType := mtiType pdu.data.head?

def smspduGetSenderAddress (pdu : SmsPdu) (address : SmsAddress) : Option SmsAddress :=
  if smspduGetType pdu = .deliver then (smsGetScAddress address pdu.data.tail).map Prod.fst else none

def smspduGetScTimestamp (pdu : SmsPdu) (address : SmsAddress) : Option SmsTimeStamp :=
  if smspduGetType pdu = .deliver then
    match smsGetScAddress address pdu.data.tail with
    | none => none
    | some (_, data) => (smsGetTimestamp (data.drop 2)).map Prod.fst
  else none

def smspduGetReceiverAddress (pdu : SmsPdu) (address : SmsAddress) : Option SmsAddress :=
  if smspduGetType pdu = .submit then (smsGetAddress address (pdu.data.tail.drop 1)).map Prod.fst else none

/-- The branch of `smspdu_get_text_message` for SMS-DELIVER: nobody sets up the rope. -/
def deliverText (pdu : SmsPdu) (address : SmsAddress) (rope : GsmRope) (utf8len : Int) : Except Fault (Int × List UInt8) :=
  match smsGetScAddress address pdu.data.tail with
  | none => .ok (-1, [])
  | some (_, data) =>
    match smsGetCodingScheme (data.drop 1) with
    | (.unknown, _) => .ok (-1, [])
    | (coding, data) =>
      match smsGetTimestamp data with
      | none => .ok (-1, [])
      | some (_, data) => textMessage data (hasUdh pdu.data.head?) coding rope utf8len

def submitText (pdu : SmsPdu) (address : SmsAddress) (utf8len : Int) : Except Fault (Int × List UInt8) :=
  match smsGetAddress address (pdu.data.tail.drop 1) with
  | none => .ok (-1, [])
  | some (_, data) =>
    match smsGetCodingScheme (data.drop 1) with
    | (.unknown, _) => .ok (-1, [])
    | (coding, data) => textMessage data (hasUdh pdu.data.head?) coding gsmRopeInitAlloc utf8len

/-- `smspdu_get_text_message`: its result, and the bytes it copies to a buffer of `utf8len` bytes. The
address and the rope are those that lie on the stack. -/
def smspduGetTextMessage (pdu : SmsPdu) (address : SmsAddress) (rope : GsmRope) (utf8len : Int) :
    Except Fault (Int × List UInt8) :=
  match smspduGetType pdu with
  | .deliver => deliverText pdu address rope utf8len
  | .submit => submitText pdu address utf8len
  | _ => .ok (-1, [])

/-! ### Results -/

theorem utf8Write_length (v : Nat) : (utf8Write v).length ≤ 4 := by
  rw [utf8Write]
  split_ifs <;> simp

theorem charFromGsm7_length (escaped : Bool) (c : Nat) : (charFromGsm7 escaped c).2.length ≤ 4 := by
  rw [charFromGsm7]
  split_ifs
  · exact utf8Write_length _
  · exact Nat.zero_le _
  · exact utf8Write_length _

variable {len n : Nat} {src : List UInt8}

theorem fromGsm7_length {shift : Nat} {escaped : Bool}
    (h : fromGsm7 n shift escaped src = .ok text) : text.length ≤ 4 * n := by
  induction n generalizing shift escaped src text with
  | zero =>
    cases h
    exact Nat.zero_le _
  | succ n ih =>
    rw [fromGsm7] at h
    split at h
    · cases h
    next c _ =>
      have hchar := charFromGsm7_length escaped c
      -- both ways of moving on decode the other septets
      have hmap : ∀ x : Except Fault (List UInt8), (∀ t, x = .ok t → t.length ≤ 4 * n) →
          x.map ((charFromGsm7 escaped c).2 ++ ·) = .ok text → text.length ≤ 4 * (n + 1) := by
        intro x hx hok
        cases x with
        | error fault => cases hok
        | ok t =>
          cases hok
          have := hx t rfl
          rw [List.length_append]
          omega
      simp only at h
      split at h
      all_goals exact hmap _ (fun t ht => ih ht) h

theorem ucs2ToUtf8_length (h : ucs2ToUtf8 src n = .ok text) : text.length ≤ 4 * n := by
  induction n generalizing src text with
  | zero =>
    cases src <;> cases h <;> exact Nat.zero_le _
  | succ n ih =>
    match src, h with
    | hi :: lo :: src, h =>
      rw [ucs2ToUtf8] at h
      cases hrest : ucs2ToUtf8 src n with
      | error fault =>
        rw [hrest] at h
        cases h
      | ok t =>
        rw [hrest] at h
        cases h
        have hfirst := utf8Write_length (hi.toNat <<< 8 ||| lo.toNat)
        have := ih hrest
        rw [List.length_append]
        omega
    | [], h => cases h
    | [_], h => cases h

theorem decodeText_length (h : decodeText coding len cur = .ok text) : text.length ≤ 4 * len := by
  cases coding with
  | gsm7 => exact fromGsm7_length h
  | ucs2 =>
    have := ucs2ToUtf8_length h
    omega
  | unknown =>
    cases h
    exact Nat.zero_le _

theorem textStart_length {cur' : List UInt8} (h : textStart udh coding cur = some (len, cur')) : len < 256 := by
  cases cur with
  | nil => cases h
  | cons b cur =>
    have hb := b.toNat_lt
    cases udh with
    | false =>
      cases h
      exact hb
    | true =>
      cases cur with
      | nil => cases h
      | cons hlen cur =>
        simp only [textStart, if_true] at h
        split at h
        · cases h
        obtain ⟨n, hn, heq⟩ := Option.map_eq_some_iff.1 h
        cases heq
        simp only [textLength] at hn
        generalize (if coding = .gsm7 then 2 * (hlen.toNat + 1) else hlen.toNat + 1) = header at hn
        split at hn
        · cases hn
        · cases hn
          omega

theorem result_eq {ε α β : Type} {a b : α} {x y : β} (h : (Except.ok (a, x) : Except ε _) = .ok (b, y)) : b = a :=
  (Prod.mk.inj (Except.ok.inj h)).1.symm

theorem ropeText_result (h : ropeText rope utf8len = .ok (result, text)) : result = rope.pos := by
  rw [ropeText] at h
  split at h
  · exact result_eq h
  · split at h
    · exact result_eq h
    · cases h

theorem ropeWrite_pos {rope' : GsmRope} (h : ropeWrite rope text = .ok rope') : rope'.pos = rope.pos + text.length := by
  rw [ropeWrite] at h
  split at h
  · cases h
    rfl
  · split at h
    · cases h
    · cases h
      rfl

section Messages
variable {pdu : SmsPdu} {address : SmsAddress}

/-- The result of reading a text is -1, or the position of the rope behind it. -/
theorem textMessage_result (h : textMessage cur udh coding rope utf8len = .ok (result, text)) :
    result = -1 ∨ rope.pos ≤ result ∧ result ≤ rope.pos + 1020 := by
  rw [textMessage] at h
  split at h
  · cases h
  · exact .inl (result_eq h)
  next rope' hget =>
    rw [smsGetTextUtf8] at hget
    split at hget
    · cases hget
    next len cur' hstart =>
      have hlen := textStart_length hstart
      split at hget
      · cases hget
      next decoded hdecode =>
        have hdecoded := decodeText_length hdecode
        cases hwrite : ropeWrite rope decoded with
        | error fault =>
          rw [hwrite] at hget
          cases hget
        | ok r =>
          rw [hwrite] at hget
          cases hget
          have hpos := ropeWrite_pos hwrite
          rw [ropeText_result h]
          omega

theorem deliverText_result (h : deliverText pdu address rope utf8len = .ok (result, text)) :
    result = -1 ∨ rope.pos ≤ result ∧ result ≤ rope.pos + 1020 := by
  rw [deliverText] at h
  split at h
  · exact .inl (result_eq h)
  split at h
  · exact .inl (result_eq h)
  · split at h
    · exact .inl (result_eq h)
    · exact textMessage_result h

theorem submitText_result (h : submitText pdu address utf8len = .ok (result, text)) :
    result = -1 ∨ 0 ≤ result ∧ result ≤ 1020 := by
  rw [submitText] at h
  split at h
  · exact .inl (result_eq h)
  · split at h
    · exact .inl (result_eq h)
    · exact textMessage_result h

theorem smspduGetTextMessage_le (hrope : rope.pos = 0)
    (h : smspduGetTextMessage pdu address rope utf8len = .ok (result, text)) : result ≤ 1020 := by
  rw [smspduGetTextMessage] at h
  split at h
  · have := deliverText_result h
    omega
  · have := submitText_result h
    omega
  · cases h
    omega

end Messages

end GemDroid.Sms
