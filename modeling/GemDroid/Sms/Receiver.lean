import GemDroid.Sms.Parse

/-! The receiver of SMS-SUBMIT messages (`telephony/sms.c`).

The parts of a message are collected in a fragment, which is found by the address and the reference
of a part. How many parts there are is taken from the first part that comes in; the parts that
follow bring their own number. -/
namespace GemDroid.Sms

/-! ### The header of a part -/

/-- `sms_skip_address` returns 0; it does not move the cursor. -/
def smsSkipAddress : List UInt8 → Bool
  | dlen :: _ :: cur => (dlen.toNat + 1) / 2 ≤ cur.length
  | _ => false

def smsSkipTimestamp (cur : List UInt8) : Option (List UInt8) := if cur.length < 7 then none else some (cur.drop 7)

def smsSkipValidityPeriod (cur : List UInt8) (mtiByte : UInt8) : Option (List UInt8) :=
  let n := if (mtiByte >>> 3) &&& 3 = 0 then 0 else if (mtiByte >>> 3) &&& 3 = 1 then 1 else 7
  if cur.length < n then none else some (cur.drop n)

/-- The loop of `smspdu_get_user_data_ref` over the elements of the header. At an element of length 0
the cursor stays where it is, and `len` grows until it overflows. -/
def findElement : Nat → Int → List UInt8 → Except Fault (Option (List UInt8))
  | fuel + 1, len, htype :: hlen :: data =>
    if len < 2 then .ok none
    else if htype = 0 ∧ hlen = 3 ∧ 3 ≤ data.length then .ok (some data)
    else if hlen = 0 then .error .overflow
    else findElement fuel (len - (hlen.toNat - 2)) ((htype :: hlen :: data).drop hlen.toNat)
  | _, _, _ => .ok none

/-- Where `smspdu_get_user_data_ref` looks for the length of the header. -/
def headerCursor (pdu : SmsPdu) : Option (List UInt8) :=
  match pdu.data with
  | [] => none
  | mtiByte :: data =>
    if mtiByte &&& 0x40 = 0 then none
    else
      match mtiType (some mtiByte) with
      | .deliver => if smsSkipAddress data then smsSkipTimestamp (data.drop 2) else none
      | .submit =>
        if smsSkipAddress (data.drop 1) then smsSkipValidityPeriod ((data.drop 1).drop 2) mtiByte else none
      | _ => none

/-- How long the header is said to be, and the bytes that the loop begins with. -/
def headerStart (pdu : SmsPdu) : Option (Int × List UInt8) :=
  match headerCursor pdu with
  | some (_ :: len :: data) => some (len.toNat, data)
  | _ => none

def smspduGetUserDataRef (pdu : SmsPdu) : Except Fault (Option (List UInt8)) :=
  match headerStart pdu with
  | none => .ok none
  | some (len, data) => findElement data.length len data

def smspduGetRef (pdu : SmsPdu) (userRef : Option (List UInt8)) : Option UInt8 :=
  match userRef with
  | some ref => some (ref.getD 0 0)
  | none => if smspduGetType pdu = .submit then pdu.data.tail.head? else none

def smspduGetMaxIndex (userRef : Option (List UInt8)) : UInt8 :=
  match userRef with
  | some ref => ref.getD 1 0
  | none => 1

def smspduGetCurIndex (userRef : Option (List UInt8)) : Int :=
  match userRef with
  | some ref => (ref.getD 2 0).toNat - 1
  | none => 0

/-- What `sms_receiver_add_submit_pdu` reads from a message. -/
structure Part where
  address : SmsAddress
  ref : UInt8
  max : UInt8
  cur : Int
  deriving DecidableEq, Repr

/-- The messages are read in the order of `sms_receiver_add_submit_pdu`; `none` stands for its
result -1. The record for the address lies on the stack. -/
def readPart (pdu : SmsPdu) (stack : SmsAddress) : Except Fault (Option Part) :=
  match smspduGetReceiverAddress pdu stack with
  | none => .ok none
  | some address => (smspduGetUserDataRef pdu).map fun userRef =>
    (smspduGetRef pdu userRef).map fun ref => ⟨address, ref, smspduGetMaxIndex userRef, smspduGetCurIndex userRef⟩

/-! ### Fragments -/

structure SmsFragment where
  address : SmsAddress
  ref : UInt8
  max : UInt8
  count : UInt8
  index : Nat
  pdus : List (Option SmsPdu)
  deriving DecidableEq, Repr

structure SmsReceiver where
  last : Nat
  fragments : List SmsFragment
  deriving DecidableEq, Repr

/-- `sms_address_eq`; for more than 16 digits `memcmp` goes on behind the record. -/
def smsAddressEq (addr1 addr2 : SmsAddress) : Except Fault Bool :=
  if addr1.toa ≠ addr2.toa ∨ addr1.len ≠ addr2.len then .ok false
  else if addr1.data.toList.take addr1.len.toNat ≠ addr2.data.toList.take addr1.len.toNat then .ok false
  else if 16 < addr1.len then .error .outOfBounds
  else .ok true

def smsReceiverFindP (address : SmsAddress) (ref : UInt8) : List SmsFragment → Except Fault Nat
  | [] => .ok 0
  | node :: l =>
    if node.ref = ref then
      match smsAddressEq node.address address with
      | .error fault => .error fault
      | .ok true => .ok 0
      | .ok false => (smsReceiverFindP address ref l).map (· + 1)
    else (smsReceiverFindP address ref l).map (· + 1)

def smsFragmentAlloc (p : Part) (index : Nat) : SmsFragment :=
  ⟨p.address, p.ref, p.max, 0, index, List.replicate p.max.toNat none⟩

def SmsFragment.store (frag : SmsFragment) (cur : Nat) (pdu : SmsPdu) : Except Fault SmsFragment :=
  match frag.pdus[cur]? with
  | none => .error .outOfBounds
  | some old => .ok { frag with
    pdus := frag.pdus.set cur (some pdu)
    count := (if old.isSome then frag.count - 1 else frag.count) + 1 }

namespace SmsReceiver

def addTo (rec : SmsReceiver) (i : Nat) (frag : SmsFragment) (p : Part) (pdu : SmsPdu) : Except Fault (SmsReceiver × Int) :=
  if p.cur < 0 ∨ p.max.toNat ≤ p.cur then .ok (rec, -1)
  else
    (frag.store p.cur.toNat pdu).map fun frag =>
      ({ rec with fragments := rec.fragments.set i frag }, if frag.max ≤ frag.count then (frag.index : Int) else 0)

def alloc (rec : SmsReceiver) (p : Part) : Except Fault (SmsReceiver × SmsFragment) :=
  if rec.last + 1 < 2 ^ 31 then
    .ok (⟨rec.last + 1, rec.fragments ++ [smsFragmentAlloc p (rec.last + 1)]⟩, smsFragmentAlloc p (rec.last + 1))
  else .error .overflow

def addPart (rec : SmsReceiver) (p : Part) (pdu : SmsPdu) (memory : Bool) : Except Fault (SmsReceiver × Int) :=
  match smsReceiverFindP p.address p.ref rec.fragments with
  | .error fault => .error fault
  | .ok i =>
    match rec.fragments[i]? with
    | some frag => rec.addTo i frag p pdu
    | none =>
      if memory then
        match rec.alloc p with
        | .error fault => .error fault
        | .ok (rec, frag) => rec.addTo i frag p pdu
      else .ok (rec, -1)

def findIndex (rec : SmsReceiver) (index : Int) : Option SmsFragment :=
  rec.fragments.find? fun frag => (frag.index : Int) == index

def remove (rec : SmsReceiver) (index : Int) : SmsReceiver :=
  { rec with fragments := rec.fragments.eraseP fun frag => (frag.index : Int) == index }

end SmsReceiver

/-! ### Texts -/

/-- The loop of `sms_receiver_get_text_message`: the sum of the results, and what is copied where. -/
def partTexts (address : SmsAddress) (rope : GsmRope) : List (Option SmsPdu) → Int → Int →
    Except Fault (Int × List (Int × List UInt8))
  | [], total, _ => .ok (total, [])
  | none :: _, _, _ => .error .wildPointer
  | some pdu :: pdus, total, utf8len =>
    match smspduGetTextMessage pdu address rope (if 0 < utf8len then utf8len else 0) with
    | .error fault => .error fault
    | .ok (n, text) =>
      if total < 0 ∧ text ≠ [] then .error .outOfBounds
      else
        (partTexts address rope pdus (total + n) (if 0 < utf8len then utf8len - n else utf8len)).map fun r =>
          (r.1, (total, text) :: r.2)

def deliverTexts (address : SmsAddress) (rope : GsmRope) (utf8len : Int) : List (Option SmsPdu) → Int →
    Except Fault (List (Int × List UInt8))
  | [], _ => .ok []
  | none :: _, _ => .error .wildPointer
  | some pdu :: pdus, total =>
    match smspduGetTextMessage pdu address rope (utf8len - total) with
    | .error fault => .error fault
    | .ok (n, text) =>
      if total < 0 ∧ text ≠ [] then .error .outOfBounds
      else (deliverTexts address rope utf8len pdus (total + n)).map ((total, text) :: ·)

/-- A buffer after bytes were copied to it. -/
def copyTexts (buf : Int → UInt8) (texts : List (Int × List UInt8)) : Int → UInt8 :=
  texts.foldl (fun buf t i => if t.1 ≤ i ∧ i < t.1 + t.2.length then t.2.getD (i - t.1).toNat 0 else buf i) buf

/-- The first bytes of a buffer after texts were copied to it. -/
def bufText (buf : Int → UInt8) (texts : List (Int × List UInt8)) (n : Nat) : List UInt8 :=
  (List.range n).map fun i : Nat => copyTexts buf texts i

/-- What lies on the stack and in fresh memory, whether there is any, the time, and the reference
number. -/
structure Surroundings where
  address : SmsAddress
  rope : GsmRope
  memory : Bool
  buf : Int → UInt8
  now : SmsTimeStamp
  refNum : Nat

namespace SmsReceiver

def getTextMessage (rec : SmsReceiver) (e : Surroundings) (index utf8len : Int) :
    Except Fault (Int × List (Int × List UInt8)) :=
  match rec.findIndex index with
  | none => .ok (-1, [])
  | some frag =>
    if frag.count ≠ frag.max then .ok (-1, [])
    else partTexts e.address e.rope (frag.pdus.take frag.count.toNat) 0 utf8len

def createDeliver (rec : SmsReceiver) (e : Surroundings) (index : Int) (sender : SmsAddress) :
    Except Fault (SmsReceiver × Option (List SmsPdu)) :=
  match rec.findIndex index with
  | none => .ok (rec, none)
  | some frag =>
    if frag.count ≠ frag.max then .ok (rec, none)
    else
      match rec.getTextMessage e index 0 with
      | .error fault => .error fault
      | .ok (utf8len, _) =>
        if utf8len < 0 ∨ e.memory = false then .ok (rec.remove index, none)
        else
          match deliverTexts e.address e.rope utf8len (frag.pdus.take frag.count.toNat) 0 with
          | .error fault => .error fault
          | .ok texts =>
            match smspduCreateDeliverUtf8 (bufText e.buf texts utf8len.toNat) sender e.now e.refNum with
            | none => .error .overflow
            | some pdus => .ok (rec.remove index, some pdus)

end SmsReceiver

end GemDroid.Sms
