import GemDroid.Sms.Receiver
import GemDroid.Sms.RoundTrip

/-! The header of an SMS-DELIVER message of several parts, read back (`telephony/sms.c`).

`sms_skip_address` leaves the cursor where it is, so that `smspdu_get_user_data_ref` looks for the
header behind the first bytes of the address: its walk over elements goes through digits, coding and
timestamp, and finds the reference only if it happens to come to it. -/
namespace GemDroid.Sms
open List

/-- The loop over elements of a header comes to the bytes `rest`. -/
inductive Comes : Int → List UInt8 → List UInt8 → Prop
  | here {len : Int} {rest : List UInt8} : 2 ≤ len → Comes len rest rest
  | skip {len : Int} {htype hlen : UInt8} {data rest : List UInt8} : 2 ≤ len →
    ¬ (htype = 0 ∧ hlen = 3 ∧ 3 ≤ data.length) → hlen ≠ 0 →
    Comes (len - (hlen.toNat - 2)) ((htype :: hlen :: data).drop hlen.toNat) rest → Comes len (htype :: hlen :: data) rest

theorem Comes.findElement {len : Int} {data ref : List UInt8} (fuel : Nat) (h : Comes len data (0 :: 3 :: ref))
    (href : 3 ≤ ref.length) (hfuel : data.length ≤ fuel) : Sms.findElement fuel len data = .ok (some ref) := by
  generalize hrest : 0 :: 3 :: ref = rest at h
  induction h generalizing fuel with
  | here hlen =>
    subst hrest
    obtain ⟨fuel, rfl⟩ := Nat.exists_eq_succ_of_ne_zero (Nat.ne_zero_of_lt hfuel)
    rw [Sms.findElement, if_neg (by omega), if_pos ⟨rfl, rfl, href⟩]
  | @skip len htype hlen data _ hle hother hne _ ih =>
    obtain ⟨fuel, rfl⟩ := Nat.exists_eq_succ_of_ne_zero (Nat.ne_zero_of_lt hfuel)
    rw [Sms.findElement, if_neg (by omega), if_neg hother, if_neg hne]
    refine ih fuel ?_ hrest
    have hpos : 0 < hlen.toNat := Nat.pos_of_ne_zero fun h => hne (UInt8.toNat_inj.1 h)
    rw [length_drop]
    omega

theorem comes_of_findElement {len : Int} {data ref : List UInt8} {fuel : Nat} (h : findElement fuel len data = .ok (some ref)) :
    Comes len data (0 :: 3 :: ref) ∧ 3 ≤ ref.length := by
  fun_induction findElement fuel len data with
  | case1 | case3 | case5 => cases h
  | case2 fuel len htype hlen data hle href =>
    cases h
    obtain ⟨rfl, rfl, hlength⟩ := href
    exact ⟨.here (by omega), hlength⟩
  | case4 fuel len htype hlen data hle hother hne ih =>
    obtain ⟨hcomes, hlength⟩ := ih h
    exact ⟨.skip (by omega) hother hne hcomes, hlength⟩

/-- The arguments with which a part is written. -/
structure Written where
  utf8 : List UInt8
  useGsm7 : Bool
  addr : SmsAddress
  timestamp : SmsTimeStamp
  refNum : Nat
  pduCount : Nat
  pduIndex : Nat

namespace Written
variable (m : Written)

def pdu : SmsPdu := smspduCreateDeliver m.utf8 m.useGsm7 m.addr m.timestamp m.refNum m.pduCount m.pduIndex

def element : List UInt8 :=
  (addSmsUserHeader m.refNum m.pduCount m.pduIndex).drop 1 ++ userText m.utf8 m.useGsm7 m.pduCount

def afterType : List UInt8 :=
  (addAddress m.addr).drop 2 ++ ([0, if m.useGsm7 then 0x00 else 0x09] ++ m.timestamp.toList ++
    [UInt8.ofNat (userDataLength m.utf8 m.useGsm7 m.pduCount), 0x05] ++ m.element)

/-- The three getters return what was written. -/
def HeaderRead : Prop :=
  ∃ userRef, smspduGetUserDataRef m.pdu = .ok userRef ∧ (smspduGetRef m.pdu userRef).map UInt8.toNat = some m.refNum ∧
    (smspduGetMaxIndex userRef).toNat = m.pduCount ∧ smspduGetCurIndex userRef = m.pduIndex

/-- The index can be counted up in a byte, and the walk that begins ten bytes behind the start of
the address comes to a reference as it was written. -/
def HeaderMeets : Prop :=
  m.pduIndex < 255 ∧ ∃ rest, Comes (m.afterType.getD 8 0).toNat (m.afterType.drop 9)
    (0 :: 3 :: UInt8.ofNat m.refNum :: UInt8.ofNat m.pduCount :: UInt8.ofNat (m.pduIndex + 1) :: rest)

theorem data_pdu (hcount : 1 < m.pduCount) : m.pdu.data = 0x60 :: m.addr.len :: m.addr.toa :: m.afterType := by
  simp [pdu, smspduCreateDeliver, SmsPdu.data, addSmsDeliverPdu, afterType, element, addSmsUserHeader, addAddress,
    hcount]
  rfl

theorem length_fillLast (l : List UInt8) : (fillLast l).length = l.length := by
  induction l using fillLast.induct with
  | case1 => rfl
  | case2 b => rfl
  | case3 b l hne ih => rw [fillLast, length_cons, length_cons, ih]; exact hne

theorem length_afterType (haddr : m.addr.len.toNat ≤ 32) : (m.addr.len.toNat + 1) / 2 + 16 ≤ m.afterType.length := by
  have htake : (m.addr.data.toList.take ((m.addr.len.toNat + 1) / 2)).length = (m.addr.len.toNat + 1) / 2 := by
    rw [length_take, Vector.length_toList]
    omega
  have hdigits : ((addAddress m.addr).drop 2).length = (m.addr.len.toNat + 1) / 2 := by
    rw [addAddress]
    simp only [drop_succ_cons, drop_zero]
    split
    · rw [length_fillLast, htake]
    · exact htake
  rw [afterType, length_append, hdigits]
  simp [element, addSmsUserHeader]
  omega

/-- The walk over elements begins behind the first bytes of the address. -/
theorem userDataRef_pdu (haddr : m.addr.len.toNat ≤ 32) (hcount : 1 < m.pduCount) : smspduGetUserDataRef m.pdu =
    findElement (m.afterType.drop 9).length (m.afterType.getD 8 0).toNat (m.afterType.drop 9) := by
  have hlength := m.length_afterType haddr
  have hdata := m.data_pdu hcount
  generalize m.afterType = cur at hlength hdata
  -- the two bytes in front of the walk
  obtain ⟨a, b, data, hcur⟩ : ∃ a b data, cur.drop 7 = a :: b :: data := by
    match hd : cur.drop 7 with
    | a :: b :: data => exact ⟨a, b, data, rfl⟩
    | [_] | [] => have := congrArg length hd; simp at this; omega
  have hb : cur.getD 8 0 = b := by
    have := congrArg (·.getD 1 0) hcur
    simpa [getD_eq_getElem?_getD] using this
  have hdrop : cur.drop 9 = data := by
    have := congrArg (·.drop 2) hcur
    simpa using this
  rw [hb, hdrop, smspduGetUserDataRef, headerStart, headerCursor, hdata]
  simp only [show ¬ ((0x60 : UInt8) &&& 0x40 = 0) by decide, if_false, show mtiType (some 0x60) = .deliver from rfl,
    smsSkipAddress, show (m.addr.len.toNat + 1) / 2 ≤ cur.length by omega, decide_true, if_true, drop_succ_cons, drop_zero,
    smsSkipTimestamp, show ¬ cur.length < 7 by omega, hcur]

/-- A message of several parts is read back exactly if the walk comes to a reference that is the one
written. -/
theorem header_read_iff (haddr : m.addr.len.toNat ≤ 32) (href : m.refNum < 256)
    (hcount : 1 < m.pduCount ∧ m.pduCount < 256) (hindex : m.pduIndex < 256) : m.HeaderRead ↔ m.HeaderMeets := by
  have hwalk := m.userDataRef_pdu haddr hcount.1
  constructor
  · rintro ⟨userRef, hfound, hr, hc, hi⟩
    cases userRef with
    | none =>
      -- the message is no SMS-SUBMIT, whose reference stands behind its first byte
      have htype : smspduGetType m.pdu = .deliver := by
        rw [smspduGetType, m.data_pdu hcount.1]
        rfl
      simp [smspduGetRef, htype] at hr
    | some ref =>
      obtain ⟨hcomes, hlength⟩ := comes_of_findElement (hwalk.symm.trans hfound)
      obtain ⟨r, c, i, rest, rfl⟩ : ∃ r c i rest, ref = r :: c :: i :: rest := by
        match ref with
        | r :: c :: i :: rest => exact ⟨r, c, i, rest, rfl⟩
        | [_, _] | [_] | [] => simp at hlength
      have hr : r.toNat = m.refNum := by simpa [smspduGetRef] using hr
      have hc : c.toNat = m.pduCount := by simpa [smspduGetMaxIndex] using hc
      have hi : i.toNat = m.pduIndex + 1 := by
        simp [smspduGetCurIndex] at hi
        omega
      have hbyte := i.toNat_lt
      refine ⟨by omega, rest, ?_⟩
      rwa [← hr, ← hc, ← hi, UInt8.ofNat_toNat, UInt8.ofNat_toNat, UInt8.ofNat_toNat]
  · rintro ⟨hindex, rest, hcomes⟩
    refine ⟨_, hwalk.trans (hcomes.findElement _ (by simp) le_rfl), ?_, ?_, ?_⟩
    · simp [smspduGetRef, Nat.mod_eq_of_lt href]
    · simp [smspduGetMaxIndex, Nat.mod_eq_of_lt hcount.2]
    · simp [smspduGetCurIndex, Nat.mod_eq_of_lt (show m.pduIndex + 1 < 256 by omega)]

/-- The number 1234, and a timestamp whose last bytes are taken for an element of four bytes. -/
theorem short_number_read : HeaderRead ⟨[0x68, 0x69], true,
    ⟨4, 0x81, #v[0x21, 0x43, 0, 0, 0, 0, 0, 0, 0, 0, 0, 0, 0, 0, 0, 0]⟩, #v[0, 0, 0, 0, 4, 0, 4], 17, 3, 2⟩ := by
  refine (header_read_iff _ (by decide) (by decide) (by decide) (by decide)).2 ⟨by decide,
    userText [0x68, 0x69] true 3, ?_⟩
  refine .skip (by decide +kernel) (by decide +kernel) (by decide +kernel) ?_
  exact .here (by decide +kernel)

/-- The number 5551234: no reference is found. -/
theorem header_not_read : ¬ HeaderRead ⟨[0x68, 0x69], true, sender, Vector.replicate 7 0, 17, 3, 2⟩ := by
  rintro ⟨userRef, hfound, href, -⟩
  have hnone : smspduGetUserDataRef (pdu ⟨[0x68, 0x69], true, sender, Vector.replicate 7 0, 17, 3, 2⟩) = .ok none := by
    decide +kernel
  cases hnone.symm.trans hfound
  revert href
  decide +kernel

end Written

end GemDroid.Sms
