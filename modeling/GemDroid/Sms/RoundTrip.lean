import GemDroid.Sms.Parse

/-! Reading back the SMS-DELIVER messages that are written (`telephony/sms.c`).

The text never comes back: if `smspdu_get_text_message` gets as far as the text, it writes it into a
rope that it has not set up, so that its result is the length of the text and whatever was there
before. -/
namespace GemDroid.Sms

/-- What is written in one message comes back, whatever lies on the stack and in the records of the
caller, and for every buffer that the text fits in. -/
structure RoundTrips (pdu : SmsPdu) (utf8 : List UInt8) (senderAddress : SmsAddress) (timestamp : SmsTimeStamp) : Prop where
  sender : ∀ address, ∃ a, smspduGetSenderAddress pdu address = some a ∧ a.Same senderAddress
  stamp : ∀ address, smspduGetScTimestamp pdu address = some timestamp
  text : ∀ address rope (utf8len : Int), utf8.length ≤ utf8len →
    smspduGetTextMessage pdu address rope utf8len = .ok ((utf8.length : Int), utf8)

/-- A rope that happens to have no data and to be at a position. -/
def staleRope (pos : Int) : GsmRope := ⟨.null, pos, 0, []⟩

theorem smspduGetType_deliver (utf8 : List UInt8) (useGsm7 : Bool) (senderAddress : SmsAddress)
    (timestamp : SmsTimeStamp) (refNum pduCount pduIndex : Nat) :
    smspduGetType (smspduCreateDeliver utf8 useGsm7 senderAddress timestamp refNum pduCount pduIndex) = .deliver := by
  show mtiType (some (if 1 < pduCount then 0x20 ||| 0x40 else 0x20)) = .deliver
  split <;> rfl

/-! ### Main result -/

/-- What is written in one message never comes back. -/
theorem deliver_never_roundTrips (utf8 : List UInt8) (useGsm7 : Bool) (senderAddress : SmsAddress)
    (timestamp : SmsTimeStamp) (refNum : Nat) :
    ¬ RoundTrips (smspduCreateDeliver utf8 useGsm7 senderAddress timestamp refNum 1 0) utf8 senderAddress timestamp := by
  intro h
  have htext := h.text senderAddress (staleRope (utf8.length + 1)) utf8.length (Int.le_refl _)
  rw [smspduGetTextMessage, smspduGetType_deliver] at htext
  obtain hfailed | ⟨hpos, -⟩ := deliverText_result htext
  · omega
  · simp only [staleRope] at hpos
    omega

/-- The number 5551234. -/
def sender : SmsAddress := ⟨7, 0x81, #v[0x55, 0x15, 0x32, 0xf4, 0, 0, 0, 0, 0, 0, 0, 0, 0, 0, 0, 0]⟩

/-- A message with the text `hi`: the digits are read again as what follows them, and there is no
coding 0x15. -/
theorem hi_not_read : smsAddressFromStr [0x35, 0x35, 0x35, 0x31, 0x32, 0x33, 0x34] = some sender ∧
    utf8CheckGsm7 [0x68, 0x69] = true ∧
    ¬ RoundTrips (smspduCreateDeliver [0x68, 0x69] true sender (Vector.replicate 7 0) 0 1 0) [0x68, 0x69] sender
        (Vector.replicate 7 0) := by
  refine ⟨by decide +kernel, by decide +kernel, ?_⟩
  intro h
  have htext := h.text sender (staleRope 1) 2 (by decide)
  revert htext
  decide +kernel

end GemDroid.Sms
