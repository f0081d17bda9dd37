import GemDroid.Sms.PartHeader

/-! The walk of `smspdu_get_user_data_ref` over the elements of a header (`telephony/sms.c`).

The loop reads the type and the length of an element only in front of the end of the message. It
goes on by the length of the element, so that at an element of length 0 it stays until the counter
of the bytes left overflows. -/
namespace GemDroid.Sms
open List

def gsmHexcharToInt (c : UInt8) : Option UInt8 :=
  if c - 0x30 < 10 then some (c - 0x30)
  else if c - 0x61 < 6 then some (10 + (c - 0x61))
  else if c - 0x41 < 6 then some (10 + (c - 0x41))
  else none

def gsmHexToBytes : List UInt8 → Option (List UInt8)
  | hi :: lo :: hex => do
    let hi ← gsmHexcharToInt hi
    let lo ← gsmHexcharToInt lo
    let dst ← gsmHexToBytes hex
    return (hi <<< 4 ||| lo) :: dst
  | [] => some []
  | [_] => none

/-- `smspdu_create_from_hex`, with enough memory; the address of the service center is skipped. -/
def smspduCreateFromHex (hex : List UInt8) : Option SmsPdu :=
  match gsmHexToBytes hex with
  | some (len :: data) => if data.length < len.toNat then none else some ⟨len :: data, 1 + len.toNat⟩
  | _ => none

/-- The loop as it is written, with an `int` that counts the bytes left. -/
def elementLoop : Nat → Int → List UInt8 → Except Fault (Option (List UInt8))
  | 0, _, _ => .error .endless
  | fuel + 1, len, data =>
    if 2 ≤ len ∧ 2 ≤ data.length then
      match data with
      | htype :: hlen :: rest =>
        if htype = 0 ∧ hlen = 3 ∧ 3 ≤ rest.length then .ok (some rest)
        else if 2 ^ 31 ≤ len - (hlen.toNat - 2) then .error .overflow
        else elementLoop fuel (len - (hlen.toNat - 2)) (data.drop hlen.toNat)
      -- a read behind the end
      | _ => .error .outOfBounds
    else .ok none

/-- The loop is left after some turns, and neither overflows nor reads behind the end. -/
def WalkEnds (hex : List UInt8) : Prop :=
  ∀ pdu len data, smspduCreateFromHex hex = some pdu → headerStart pdu = some (len, data) →
    ∃ fuel ref, elementLoop fuel len data = .ok ref

/-- The loop comes to no element of length 0. -/
def NoEmptyElement (hex : List UInt8) : Prop :=
  ∀ pdu len data, smspduCreateFromHex hex = some pdu → headerStart pdu = some (len, data) →
    ∀ htype rest, ¬ Comes len data (htype :: 0 :: rest)

variable {len : Int} {data rest : List UInt8} {htype hlen : UInt8}

theorem elementLoop_skip (fuel : Nat) (hlen2 : 2 ≤ len) (hother : ¬ (htype = 0 ∧ hlen = 3 ∧ 3 ≤ data.length))
    (hint : len - (hlen.toNat - 2) < 2 ^ 31) : elementLoop (fuel + 1) len (htype :: hlen :: data) =
      elementLoop fuel (len - (hlen.toNat - 2)) ((htype :: hlen :: data).drop hlen.toNat) := by
  rw [elementLoop, if_pos ⟨hlen2, by simp⟩]
  exact (if_neg hother).trans (if_neg (by omega))

/-- At an element of length 0 the counter overflows, after as many turns as it takes. -/
theorem elementLoop_overflows (hlen2 : 2 ≤ len) : ∃ fuel, elementLoop fuel len (htype :: 0 :: data) = .error .overflow := by
  have hlast : ∀ {len : Int}, 2 ≤ len → 2 ^ 31 ≤ len + 2 → elementLoop 1 len (htype :: 0 :: data) = .error .overflow := by
    intro len hlen2 hint
    rw [elementLoop, if_pos ⟨hlen2, by simp⟩]
    exact (if_neg (by simp)).trans (if_pos (by simpa using hint))
  obtain ⟨n, hn⟩ : ∃ n : Nat, 2 ^ 31 ≤ len + 2 + 2 * n := ⟨(2 ^ 31 - len).toNat, by omega⟩
  induction n generalizing len with
  | zero => exact ⟨1, hlast hlen2 (by omega)⟩
  | succ n ih =>
    by_cases hint : len + 2 < 2 ^ 31
    · obtain ⟨fuel, h⟩ := @ih (len + 2) (by omega) (by omega)
      refine ⟨fuel + 1, ?_⟩
      rw [elementLoop_skip fuel hlen2 (by simp) (by simpa using hint)]
      simpa using h
    · exact ⟨1, hlast hlen2 (by omega)⟩

/-- The loop as it is written does what `findElement` says: no message is so long that the counter
overflows at other elements. -/
theorem exists_elementLoop_eq (fuel : Nat) (hfuel : data.length ≤ fuel) (hint : len + data.length < 2 ^ 31) :
    ∃ n, elementLoop n len data = findElement fuel len data := by
  fun_induction findElement fuel len data with
  | case1 fuel len htype hlen data hle => exact ⟨1, if_neg (by omega)⟩
  | case2 fuel len htype hlen data hle href =>
    refine ⟨1, ?_⟩
    rw [elementLoop, if_pos ⟨by omega, by simp⟩]
    exact if_pos href
  | case3 fuel len htype data hle hother =>
    have hle : 2 ≤ len := by omega
    exact elementLoop_overflows hle
  | case4 fuel len htype hlen data hle hother hne ih =>
    have hpos : 0 < hlen.toNat := Nat.pos_of_ne_zero fun h => hne (UInt8.toNat_inj.1 h)
    simp only [length_cons] at hfuel hint
    obtain ⟨n, hn⟩ := ih (by simp only [length_drop, length_cons]; omega) (by simp only [length_drop, length_cons]; omega)
    refine ⟨n + 1, ?_⟩
    rw [elementLoop_skip n (by omega) hother (by omega), hn]
  | case5 fuel len data hshort =>
    refine ⟨1, if_neg fun hguard => ?_⟩
    obtain ⟨a, b, l, rfl⟩ : ∃ a b l, data = a :: b :: l := by
      cases data with
      | nil => simp at hguard
      | cons a l =>
        cases l with
        | nil => simp at hguard
        | cons b l => exact ⟨a, b, l, rfl⟩
    cases fuel with
    | zero => simp at hfuel
    | succ fuel => exact hshort fuel a b l rfl rfl

theorem elementLoop_stays (fuel : Nat) (hlen2 : 2 ≤ len) (ref : Option (List UInt8)) :
    elementLoop fuel len (htype :: 0 :: data) ≠ .ok ref := by
  induction fuel generalizing len with
  | zero => simp [elementLoop]
  | succ fuel ih =>
    rw [elementLoop, if_pos ⟨hlen2, by simp⟩]
    rw [if_neg (by simp)]
    split
    · simp
    · exact ih (by simp; omega)

theorem Comes.elementLoop_ne (h : Comes len data (htype :: 0 :: rest)) (fuel : Nat) (ref : Option (List UInt8)) :
    elementLoop fuel len data ≠ .ok ref := by
  generalize hbytes : htype :: 0 :: rest = bytes at h
  induction h generalizing fuel with
  | here hle =>
    subst hbytes
    exact elementLoop_stays fuel hle ref
  | skip hle hother _ _ ih =>
    cases fuel with
    | zero => simp [elementLoop]
    | succ fuel =>
      rw [elementLoop, if_pos ⟨hle, by simp⟩]
      rw [if_neg hother]
      split
      · simp
      · exact ih fuel hbytes

/-- A walk that comes to no empty element is left. -/
theorem findElement_ok (fuel : Nat) (h : ∀ htype rest, ¬ Comes len data (htype :: 0 :: rest)) :
    ∃ ref, findElement fuel len data = .ok ref := by
  fun_induction findElement fuel len data with
  | case1 | case2 | case5 => exact ⟨_, rfl⟩
  | case3 fuel len htype data hle hother => exact absurd (.here (by omega)) (h htype data)
  | case4 fuel len htype hlen data hle hother hne ih =>
    exact ih fun t r hcomes => h t r (.skip (by omega) hother hne hcomes)

section Messages
variable {hex : List UInt8} {pdu : SmsPdu}

theorem length_gsmHexToBytes {bytes : List UInt8} (h : gsmHexToBytes hex = some bytes) : hex.length = 2 * bytes.length := by
  fun_induction gsmHexToBytes hex generalizing bytes with
  | case1 hi lo hex ih =>
    simp only [Option.bind_eq_bind, Option.bind_eq_some_iff, Option.pure_def, Option.some.injEq] at h
    obtain ⟨_, -, _, -, dst, hdst, rfl⟩ := h
    simp only [length_cons, ih hdst]
    omega
  | case2 => cases h; rfl
  | case3 => cases h

theorem length_headerCursor {cur : List UInt8} (h : headerCursor pdu = some cur) : cur.length ≤ pdu.bytes.length := by
  have hle : cur.length ≤ pdu.data.length := by
    unfold headerCursor at h
    split at h
    · cases h
    next mtiByte data hdata =>
    rw [hdata]
    unfold smsSkipTimestamp smsSkipValidityPeriod at h
    split at h
    · cases h
    split at h
    · split_ifs at h
      cases h
      simp only [length_drop, length_cons]
      omega
    · dsimp only at h
      split_ifs at h <;> cases h <;> simp only [length_drop, length_cons] <;> omega
    · cases h
  simp only [SmsPdu.data, length_drop] at hle
  omega

theorem length_headerStart (hhex : hex.length < 2 ^ 31) (hpdu : smspduCreateFromHex hex = some pdu)
    (hstart : headerStart pdu = some (len, data)) : len + data.length < 2 ^ 31 := by
  have hbytes : pdu.bytes.length < 2 ^ 30 := by
    unfold smspduCreateFromHex at hpdu
    split at hpdu
    next n data hdata =>
      split at hpdu <;> cases hpdu
      have hlength := length_gsmHexToBytes hdata
      dsimp only
      omega
    · cases hpdu
  unfold headerStart at hstart
  split at hstart <;> cases hstart
  next _ n hcursor =>
  have hle := length_headerCursor hcursor
  have hbyte := n.toNat_lt
  simp only [length_cons] at hle
  omega

/-- The loop, with turns enough, is what `smspdu_get_user_data_ref` is taken to do. -/
theorem exists_elementLoop_userDataRef (hhex : hex.length < 2 ^ 31) (hpdu : smspduCreateFromHex hex = some pdu)
    (hstart : headerStart pdu = some (len, data)) : ∃ n, elementLoop n len data = smspduGetUserDataRef pdu := by
  rw [smspduGetUserDataRef, hstart]
  exact exists_elementLoop_eq _ le_rfl (length_headerStart hhex hpdu hstart)

/-- The walk over the header of a message from hexadecimal digits ends, and reads only bytes of the
message, exactly if it comes to no element of length 0. -/
theorem walkEnds_iff (hhex : hex.length < 2 ^ 31) : WalkEnds hex ↔ NoEmptyElement hex := by
  refine forall₅_congr fun pdu len data hpdu hstart => ⟨?_, fun hno => ?_⟩
  · rintro ⟨fuel, ref, hends⟩ htype rest hcomes
    exact hcomes.elementLoop_ne fuel ref hends
  · obtain ⟨n, hn⟩ := exists_elementLoop_userDataRef hhex hpdu hstart
    obtain ⟨ref, href⟩ := findElement_ok data.length hno
    rw [smspduGetUserDataRef, hstart] at hn
    exact ⟨n, ref, hn.trans href⟩

end Messages

/-- The message 004100000000050102, with one element. -/
theorem one_element_ends : WalkEnds [0x30, 0x30, 0x34, 0x31, 0x30, 0x30, 0x30, 0x30, 0x30, 0x30, 0x30, 0x30, 0x30,
    0x35, 0x30, 0x31, 0x30, 0x32] := by
  refine (walkEnds_iff (by decide)).2 fun pdu len data hpdu hstart htype rest hcomes => ?_
  cases hpdu.symm.trans (show _ = some ⟨[0, 0x41, 0, 0, 0, 0, 5, 1, 2], 1⟩ by decide)
  cases hstart.symm.trans (show _ = some (5, [1, 2]) by decide)
  generalize hbytes : htype :: 0 :: rest = bytes at hcomes
  obtain _ | ⟨-, -, -, hcomes⟩ := hcomes
  · simp at hbytes
  · subst hbytes
    cases hcomes

/-- The message 004100000000050100. -/
theorem empty_element_endless : ¬ WalkEnds [0x30, 0x30, 0x34, 0x31, 0x30, 0x30, 0x30, 0x30, 0x30, 0x30, 0x30, 0x30, 0x30,
    0x35, 0x30, 0x31, 0x30, 0x30] := by
  intro hends
  obtain ⟨fuel, ref, h⟩ := hends ⟨[0, 0x41, 0, 0, 0, 0, 5, 1, 0], 1⟩ 5 [1, 0] (by decide) (by decide)
  exact elementLoop_stays fuel (by decide) ref h

end GemDroid.Sms
