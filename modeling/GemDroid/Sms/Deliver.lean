import GemDroid.Sms.Gsm

/-! SMS-DELIVER messages (`telephony/sms.c`).

A text that is too long for one message is cut into several, each with a header of six bytes. A
message is written twice into a rope, once to count its bytes and once into a buffer of that size;
here it is the list of its bytes. -/
namespace GemDroid.Sms

def maxUserDataBytes : Nat := 140

def maxUserDataSeptets : Nat := 160

def userDataHeaderSize : Nat := 6

structure SmsAddress where
  len : UInt8
  toa : UInt8
  data : Vector UInt8 16
  deriving DecidableEq, Repr

/-- Two addresses have the same length, type and digits. -/
def SmsAddress.Same (a b : SmsAddress) : Prop :=
  a.len = b.len ∧ a.toa = b.toa ∧
    a.data.toList.take ((b.len.toNat + 1) / 2) = b.data.toList.take ((b.len.toNat + 1) / 2)

abbrev SmsTimeStamp : Type := Vector UInt8 7

structure SmsPdu where
  bytes : List UInt8
  tpdu : Nat
  deriving DecidableEq, Repr

/-- The last byte of the digits of an odd number is filled up. -/
def fillLast : List UInt8 → List UInt8
  | [] => []
  | [b] => [b ||| 0xf0]
  | b :: l => b :: fillLast l

def addAddress (addr : SmsAddress) : List UInt8 :=
  let digits := addr.data.toList.take ((addr.len.toNat + 1) / 2)
  addr.len :: addr.toa :: if addr.len &&& 1 = 1 then fillLast digits else digits

def addSmsUserHeader (refNumber pduCount pduIndex : Nat) : List UInt8 :=
  [0x05, 0x00, 0x03, UInt8.ofNat refNumber, UInt8.ofNat pduCount, UInt8.ofNat pduIndex + 1]

def headerSeptets : Nat := 6 * 8 / 7 + if 6 * 8 % 7 > 0 then 1 else 0

def userDataLength (utf8 : List UInt8) (useGsm7 : Bool) (pduCount : Nat) : Nat :=
  if useGsm7 then utf8ToGsm7Count utf8 + if 1 < pduCount then headerSeptets else 0
  else utf8ToUcs2Bytes utf8 / 2 * 2 + if 1 < pduCount then 6 else 0

def headerPad (pduCount : Nat) : Nat := if 1 < pduCount then headerSeptets * 7 - 6 * 8 else 0

def reserve (count : Nat) (written : List UInt8) : List UInt8 := (written ++ List.replicate count 0).take count

def userText (utf8 : List UInt8) (useGsm7 : Bool) (pduCount : Nat) : List UInt8 :=
  if useGsm7 then
    reserve ((utf8ToGsm7Count utf8 * 7 + headerPad pduCount + 7) / 8) (utf8ToGsm7 utf8 (headerPad pduCount))
  else reserve (utf8ToUcs2Bytes utf8 / 2 * 2) (utf8ToUcs2 utf8)

def addSmsDeliverPdu (utf8 : List UInt8) (useGsm7 : Bool) (senderAddress : SmsAddress) (timestamp : SmsTimeStamp)
    (refNum pduCount pduIndex : Nat) : List UInt8 :=
  [0, if 1 < pduCount then 0x20 ||| 0x40 else 0x20] ++ addAddress senderAddress ++
    [0, if useGsm7 then 0x00 else 0x09] ++ timestamp.toList ++
    [UInt8.ofNat (userDataLength utf8 useGsm7 pduCount)] ++
    (if 1 < pduCount then addSmsUserHeader refNum pduCount pduIndex else []) ++
    userText utf8 useGsm7 pduCount

def smspduCreateDeliver (utf8 : List UInt8) (useGsm7 : Bool) (senderAddress : SmsAddress) (timestamp : SmsTimeStamp)
    (refNum pduCount pduIndex : Nat) : SmsPdu :=
  ⟨addSmsDeliverPdu utf8 useGsm7 senderAddress timestamp refNum pduCount pduIndex, 1⟩

/-! ### Messages of several parts -/

/-- How a text is cut: `block`, `num_pdus` and `leftover`. -/
structure Plan where
  useGsm7 : Bool
  block : Nat
  numPdus : Nat
  leftover : Nat
  deriving DecidableEq, Repr

/-- `num_pdus` and `leftover` for a length. -/
def planFor (useGsm7 : Bool) (count block : Nat) : Plan :=
  let leftover := count - count / block * block
  ⟨useGsm7, block, if 0 < leftover then count / block + 1 else count / block, leftover⟩

/-- The part of `smspdu_create_deliver_utf8` that counts; there is no result if an `int` overflows. -/
def plan (utf8 : List UInt8) : Option Plan :=
  if utf8CheckGsm7 utf8 then
    if utf8ToGsm7Count utf8 < 2 ^ 31 then
      some (planFor true (utf8ToGsm7Count utf8) (maxUserDataSeptets - userDataHeaderSize))
    else none
  else if utf8ToUcs2Bytes utf8 < 2 ^ 31 then
    some (planFor false (2 * (utf8ToUcs2Bytes utf8 / 2)) (maxUserDataBytes - userDataHeaderSize))
  else none

namespace Plan

def srcNext (p : Plan) (src : List UInt8) (skip : Nat) : List UInt8 :=
  if p.useGsm7 then utf8SkipGsm7 src skip else utf8SkipUcs2 src skip

def skip (p : Plan) (nn : Nat) : Nat := if 0 < p.leftover ∧ nn = p.numPdus - 1 then p.leftover else p.block

/-- The loop of `smspdu_create_deliver_utf8` for `n` parts from `nn` on: the texts from `src` to
`src_next`. -/
def slices (p : Plan) : Nat → Nat → List UInt8 → List (List UInt8)
  | 0, _, _ => []
  | n + 1, nn, src =>
    let next := p.srcNext src (p.skip nn)
    src.take (src.length - next.length) :: p.slices n (nn + 1) next

end Plan

def smspduCreateDeliverUtf8 (utf8 : List UInt8) (senderAddress : SmsAddress) (timestamp : SmsTimeStamp) (refNum : Nat) :
    Option (List SmsPdu) :=
  (plan utf8).map fun p => (p.slices p.numPdus 0 utf8).mapIdx fun nn src =>
    smspduCreateDeliver src p.useGsm7 senderAddress timestamp refNum p.numPdus nn

theorem smspduCreateDeliverUtf8_isSome {utf8 : List UInt8} (h : utf8.length < 2 ^ 30) (senderAddress : SmsAddress)
    (timestamp : SmsTimeStamp) (refNum : Nat) :
    (smspduCreateDeliverUtf8 utf8 senderAddress timestamp refNum).isSome = true := by
  have hgsm := utf8ToGsm7Count_le utf8
  have hucs := utf8ToUcs2Bytes_le utf8
  rw [smspduCreateDeliverUtf8, Option.isSome_map, plan]
  split
  all_goals
    rw [if_pos (by omega)]
    rfl

end GemDroid.Sms
