import GemDroid.Sms.Deliver

/-! How texts are cut into messages (`smspdu_create_deliver_utf8`).

The number of parts is the length of the text over the length of a block. In the 7-bit alphabet a
block has 154 septets, but the header takes 7, one more than it leaves; and a block that is not
full, since a character of two septets did not fit, leaves something over for which there is no
part. Both cannot be avoided with two parts or more: parts are right for UCS2, where all
characters have one length, and in the 7-bit alphabet for texts of one part. -/
namespace GemDroid.Sms
open Lib List Blocks

variable {cs : List (List UInt8)} {p : Plan}

namespace Plan

def charWeight (p : Plan) (ch : List UInt8) : Nat := if p.useGsm7 then charSeptets ch else 2

def limits (p : Plan) (n nn : Nat) : List Nat := (range' nn n).map p.skip

theorem limits_succ (n nn : Nat) : p.limits (n + 1) nn = p.skip nn :: p.limits n (nn + 1) := by
  rw [limits, range'_succ, map_cons, limits]

theorem srcNext_flatten (h : Chars cs) (k : Nat) : p.srcNext cs.flatten k = (fit p.charWeight k cs).2.flatten := by
  rw [srcNext]
  by_cases hgsm : p.useGsm7 = true
  · have hw : p.charWeight = charSeptets := by
      funext ch
      rw [charWeight, if_pos hgsm]
    rw [if_pos hgsm, utf8SkipGsm7_flatten h, hw]
  · have hw : p.charWeight = fun _ => 2 := by
      funext ch
      rw [charWeight, if_neg hgsm]
    rw [if_neg hgsm, utf8SkipUcs2_flatten h, hw]

theorem slices_flatten (h : Chars cs) (n nn : Nat) :
    p.slices n nn cs.flatten = (cut p.charWeight (p.limits n nn) cs).1.map flatten := by
  induction n generalizing nn cs with
  | zero => rfl
  | succ n ih =>
    have hsplit := fit_append (w := p.charWeight) (p.skip nn) cs
    have hrest : Chars (fit p.charWeight (p.skip nn) cs).2 := by
      intro ch hch
      exact h ch (hsplit ▸ mem_append_right _ hch)
    have hbytes : cs.flatten = (fit p.charWeight (p.skip nn) cs).1.flatten ++
        (fit p.charWeight (p.skip nn) cs).2.flatten := by
      rw [← flatten_append, hsplit]
    have hfirst : cs.flatten.take (cs.flatten.length - (fit p.charWeight (p.skip nn) cs).2.flatten.length) =
        (fit p.charWeight (p.skip nn) cs).1.flatten := by
      rw [hbytes, length_append, Nat.add_sub_cancel, take_left]
    rw [slices, srcNext_flatten h, hfirst, ih hrest, limits_succ, cut, map_cons]

theorem weight_charWeight (h : Chars cs) :
    weight p.charWeight cs = if p.useGsm7 then utf8ToGsm7Count cs.flatten else utf8ToUcs2Bytes cs.flatten := by
  by_cases hgsm : p.useGsm7 = true
  · rw [if_pos hgsm, utf8ToGsm7Count_flatten h]
    congr 1
    funext ch
    rw [charWeight, if_pos hgsm]
  · rw [if_neg hgsm, utf8ToUcs2Bytes_flatten h]
    congr 1
    funext ch
    rw [charWeight, if_neg hgsm]

end Plan

open Plan

section PlanFor
variable {useGsm7 : Bool} {count block : Nat}

theorem limits_planFor : (planFor useGsm7 count block).limits (planFor useGsm7 count block).numPdus 0 =
      replicate (count / block) block ++
        if 0 < count - count / block * block then [count - count / block * block] else [] := by
  generalize hp : planFor useGsm7 count block = p
  have hblock : p.block = block := by rw [← hp]; rfl
  have hleft : p.leftover = count - count / block * block := by rw [← hp]; rfl
  by_cases hpos : 0 < count - count / block * block
  · have hnum : p.numPdus = count / block + 1 := by
      rw [← hp]
      exact if_pos hpos
    have hfull : (range' 0 (count / block)).map p.skip = replicate (count / block) block := by
      rw [eq_replicate_iff]
      refine ⟨by simp, ?_⟩
      intro x hx
      obtain ⟨nn, hnn, rfl⟩ := mem_map.1 hx
      rw [mem_range'_1] at hnn
      rw [skip, hnum, if_neg (by omega), hblock]
    have hlast : p.skip (count / block) = count - count / block * block := by
      rw [skip, hnum, hleft, if_pos ⟨hpos, rfl⟩]
    rw [if_pos hpos, limits, hnum, range'_1_concat, map_append, hfull, map_singleton, zero_add, hlast]
  · have hnum : p.numPdus = count / block := by
      rw [← hp]
      exact if_neg hpos
    rw [if_neg hpos, append_nil, limits, hnum, eq_replicate_iff]
    refine ⟨by simp, ?_⟩
    intro x hx
    obtain ⟨nn, hnn, rfl⟩ := mem_map.1 hx
    rw [skip, hleft, if_neg fun hand => hpos hand.1, hblock]

theorem sum_limits_planFor :
    ((planFor useGsm7 count block).limits (planFor useGsm7 count block).numPdus 0).sum = count := by
  have hdiv := Nat.div_mul_le_self count block
  rw [limits_planFor, sum_append, sum_replicate_nat]
  split
  · rw [sum_singleton]
    omega
  · rw [sum_nil]
    omega

theorem le_block_of_mem_limits {n : Nat} (hpos : 0 < block)
    (h : n ∈ (planFor useGsm7 count block).limits (planFor useGsm7 count block).numPdus 0) : n ≤ block := by
  have hmod := Nat.mod_lt count hpos
  have hdiv := Nat.div_add_mod' count block
  rw [limits_planFor, mem_append] at h
  obtain h | h := h
  · exact le_of_eq (eq_of_mem_replicate h)
  · split at h
    · rw [mem_singleton] at h
      omega
    · cases h

end PlanFor

/-! ### What is asked for -/

def maxUserData (useGsm7 : Bool) : Nat := if useGsm7 then maxUserDataSeptets else maxUserDataBytes

/-- The parts put together are the text, and each of them fits into a message. -/
def SplitsRight (utf8 : List UInt8) : Prop :=
  ∃ p, plan utf8 = some p ∧ (p.slices p.numPdus 0 utf8).flatten = utf8 ∧
    ∀ src ∈ p.slices p.numPdus 0 utf8, userDataLength src p.useGsm7 p.numPdus ≤ maxUserData p.useGsm7

/-- The text is not longer than one block, or it has a character that is not in the 7-bit alphabet. -/
def OneBlock (utf8 : List UInt8) : Prop :=
  if utf8CheckGsm7 utf8 then utf8ToGsm7Count utf8 ≤ maxUserDataSeptets - userDataHeaderSize
  else utf8ToUcs2Bytes utf8 < 2 ^ 31

theorem slices_right_iff (h : Chars cs) : (p.slices p.numPdus 0 cs.flatten).flatten = cs.flatten ↔
      (cut p.charWeight (p.limits p.numPdus 0) cs).2 = [] := by
  generalize hcut : cut p.charWeight (p.limits p.numPdus 0) cs = r
  have hall := cut_append (w := p.charWeight) (p.limits p.numPdus 0) cs
  rw [hcut] at hall
  have hbytes : cs.flatten = r.1.flatten.flatten ++ r.2.flatten := by rw [← flatten_append, hall]
  have hrest : Chars r.2 := fun ch hch => h ch (hall ▸ mem_append_right _ hch)
  rw [slices_flatten h, hcut, ← flatten_flatten]
  constructor
  · intro heq
    rw [hbytes] at heq
    exact hrest.flatten_eq_nil (self_eq_append_right.1 heq)
  · intro hnil
    rw [hbytes, hnil, flatten_nil, append_nil]

theorem userDataLength_flatten (h : Chars cs) (n : Nat) : userDataLength cs.flatten p.useGsm7 n =
      weight p.charWeight cs + if 1 < n then (if p.useGsm7 then headerSeptets else 6) else 0 := by
  rw [userDataLength, weight_charWeight h]
  by_cases hgsm : p.useGsm7 = true
  · simp only [if_pos hgsm]
  · simp only [if_neg hgsm]
    rw [utf8ToUcs2Bytes_flatten h, weight_const fun _ _ => rfl, Nat.mul_div_cancel _ (by decide)]

section Parts

theorem chars_of_mem_cut {ns : List Nat} {b : List (List UInt8)} (h : Chars cs)
    (hb : b ∈ (cut p.charWeight ns cs).1) : Chars b := by
  intro ch hch
  refine h ch ?_
  rw [← cut_append (w := p.charWeight) ns cs]
  exact mem_append_left _ (mem_flatten.2 ⟨b, hb, hch⟩)

theorem userDataLength_le {m : Nat} (h : Chars cs) (hlimit : ∀ n ∈ p.limits p.numPdus 0, n ≤ m)
    {src : List UInt8} (hsrc : src ∈ p.slices p.numPdus 0 cs.flatten) :
    userDataLength src p.useGsm7 p.numPdus ≤ m + if 1 < p.numPdus then (if p.useGsm7 then headerSeptets else 6) else 0 := by
  rw [slices_flatten h] at hsrc
  obtain ⟨b, hb, rfl⟩ := mem_map.1 hsrc
  rw [userDataLength_flatten (chars_of_mem_cut h hb)]
  have hle : weight p.charWeight b ≤ m := by
    obtain ⟨n, hn, hle⟩ := weight_le_of_mem_cut hb
    exact le_trans hle (hlimit n hn)
  omega

end Parts

/-! ### Main result -/

section
variable (h : Chars cs) (hp : p = planFor true (utf8ToGsm7Count cs.flatten) 154)
include h hp

theorem sum_limits : (p.limits p.numPdus 0).sum = weight p.charWeight cs := by
  rw [weight_charWeight h, if_pos (by rw [hp]; rfl), hp, sum_limits_planFor]

/-- If nothing of a text of several blocks is left, its first part is a full block, which has no room
for the header. -/
theorem le_block_of_splits (hall : (p.slices p.numPdus 0 cs.flatten).flatten = cs.flatten)
    (hfits : ∀ src ∈ p.slices p.numPdus 0 cs.flatten, userDataLength src p.useGsm7 p.numPdus ≤ 160) :
    utf8ToGsm7Count cs.flatten ≤ 154 := by
  by_contra hlong
  have hgsm : p.useGsm7 = true := by rw [hp]; rfl
  have hsum := sum_limits h hp
  have hfull := map_weight_cut hsum ((slices_right_iff h).1 hall)
  have hblocks : utf8ToGsm7Count cs.flatten / 154 ≠ 0 := by omega
  have hblock : 154 ∈ p.limits p.numPdus 0 := by
    rw [hp, limits_planFor]
    exact mem_append_left _ (mem_replicate.2 ⟨hblocks, rfl⟩)
  have hnum : 1 < p.numPdus := by
    rw [hp]
    simp only [planFor]
    split <;> omega
  rw [← hfull] at hblock
  obtain ⟨b, hb, hbweight⟩ := mem_map.1 hblock
  have hsrc : b.flatten ∈ p.slices p.numPdus 0 cs.flatten := by
    rw [slices_flatten h]
    exact mem_map_of_mem hb
  have hlen := hfits _ hsrc
  rw [userDataLength_flatten (chars_of_mem_cut h hb), hbweight, if_pos hnum, if_pos hgsm] at hlen
  exact absurd hlen (by decide)

theorem splits_of_le_block (hle : utf8ToGsm7Count cs.flatten ≤ 154) :
    (p.slices p.numPdus 0 cs.flatten).flatten = cs.flatten ∧ p.numPdus ≤ 1 := by
  have hgsm : p.useGsm7 = true := by rw [hp]; rfl
  have hsum := sum_limits h hp
  have hnum : p.numPdus ≤ 1 := by
    rw [hp]
    simp only [planFor]
    split <;> omega
  refine ⟨(slices_right_iff h).2 ?_, hnum⟩
  have hlen : (p.limits p.numPdus 0).length ≤ 1 := by simpa [limits] using hnum
  generalize p.limits p.numPdus 0 = ns at hsum hlen
  cases ns with
  | nil =>
    refine eq_nil_of_weight_zero ?_ hsum.symm
    intro ch
    rw [charWeight, if_pos hgsm]
    exact septets_pos _
  | cons n ns =>
    obtain rfl : ns = [] := by
      rw [length_cons] at hlen
      exact length_eq_zero_iff.1 (by omega)
    rw [sum_singleton] at hsum
    rw [cut, fit_all (le_of_eq hsum.symm)]
    rfl

end

/-- A text in the 7-bit alphabet is cut into right parts only if it is not cut. -/
theorem splitsRight_gsm7 (h : Chars cs) (hgsm : utf8CheckGsm7 cs.flatten = true) :
    SplitsRight cs.flatten ↔ utf8ToGsm7Count cs.flatten ≤ maxUserDataSeptets - userDataHeaderSize := by
  constructor
  · intro hright
    obtain ⟨p, hplan, hall, hfits⟩ := hright
    rw [plan, if_pos hgsm] at hplan
    split at hplan
    · obtain rfl := Option.some.inj hplan
      exact le_block_of_splits h rfl hall hfits
    · cases hplan
  · intro hle
    have hsmall : utf8ToGsm7Count cs.flatten < 2 ^ 31 := lt_of_le_of_lt hle (by decide)
    refine ⟨_, by rw [plan, if_pos hgsm, if_pos hsmall], ?_⟩
    obtain ⟨hall, hnum⟩ := splits_of_le_block h rfl hle
    refine ⟨hall, ?_⟩
    intro src hsrc
    have hlen := userDataLength_le h (fun n hn => le_block_of_mem_limits (by decide) hn) hsrc
    have hone : ¬ 1 < (planFor true (utf8ToGsm7Count cs.flatten) (maxUserDataSeptets - userDataHeaderSize)).numPdus :=
      not_lt.2 hnum
    rw [if_neg hone] at hlen
    exact le_trans hlen (show 154 ≤ 160 by decide)

theorem splitsRight_ucs2 (h : Chars cs) (hgsm : utf8CheckGsm7 cs.flatten = false) :
    SplitsRight cs.flatten ↔ utf8ToUcs2Bytes cs.flatten < 2 ^ 31 := by
  have hgsm' : ¬ utf8CheckGsm7 cs.flatten = true := by simp [hgsm]
  constructor
  · intro hright
    obtain ⟨p, hplan, -⟩ := hright
    rw [plan, if_neg hgsm'] at hplan
    by_contra hlong
    rw [if_neg hlong] at hplan
    cases hplan
  · intro hsmall
    have heven : 2 ∣ utf8ToUcs2Bytes cs.flatten := by
      rw [utf8ToUcs2Bytes_flatten h, weight_const fun _ _ => rfl]
      exact Nat.dvd_mul_left ..
    refine ⟨_, by rw [plan, if_neg hgsm', if_pos hsmall], ?_⟩
    rw [Nat.mul_div_cancel' heven]
    generalize hp : planFor false (utf8ToUcs2Bytes cs.flatten) (maxUserDataBytes - userDataHeaderSize) = p
    have hucs : p.useGsm7 = false := by rw [← hp]; rfl
    have hweight : ∀ ch ∈ cs, p.charWeight ch = 2 := by
      intro ch _
      rw [charWeight, hucs]
      rfl
    constructor
    · refine (slices_right_iff h).2 (cut_uniform (by decide) hweight ?_ ?_)
      · intro n hn
        rw [← hp, limits_planFor, mem_append] at hn
        obtain hn | hn := hn
        · rw [eq_of_mem_replicate hn]
          decide
        split at hn
        · rw [mem_singleton] at hn
          rw [hn]
          exact Nat.dvd_sub heven (Dvd.dvd.mul_left (by decide) _)
        · cases hn
      · rw [← hp, sum_limits_planFor, hp, weight_charWeight h, hucs]
        rfl
    · intro src hsrc
      have hlen := userDataLength_le h (fun n hn => le_block_of_mem_limits (by decide) (hp ▸ hn)) hsrc
      rw [hucs] at hlen ⊢
      refine le_trans hlen ?_
      split <;> decide

/-- The parts put together are the text and each fits into a message, exactly if the text has a
character that is not in the 7-bit alphabet, or is not longer than one block of 154 septets. -/
theorem splitsRight_iff (utf8 : List UInt8) (hcheck : utf8Check utf8 = true) : SplitsRight utf8 ↔ OneBlock utf8 := by
  obtain ⟨cs, rfl, hcs⟩ := exists_chars hcheck
  rw [OneBlock]
  by_cases hgsm : utf8CheckGsm7 cs.flatten = true
  · rw [if_pos hgsm]
    exact splitsRight_gsm7 hcs hgsm
  · rw [if_neg hgsm]
    exact splitsRight_ucs2 hcs (Bool.eq_false_iff.2 hgsm)

theorem short_splits : SplitsRight [0x48, 0x69] := by
  refine (splitsRight_iff [0x48, 0x69] (by decide)).2 ?_
  unfold OneBlock
  decide +kernel

def longText : List UInt8 := (replicate 155 [0x61]).flatten

/-- A text of 155 septets in which the brace has two: the first part ends in front of it, and the
second has one septet, so that the brace is lost. -/
def braceText : List UInt8 := (replicate 153 [(0x61 : UInt8)] ++ [[0x7b]]).flatten

theorem long_not_split :
    utf8Check longText = true ∧ ¬ SplitsRight longText ∧ utf8Check braceText = true ∧ ¬ SplitsRight braceText := by
  refine ⟨by decide +kernel, ?_, by decide +kernel, ?_⟩
  · have hchars : Chars (replicate 155 [0x61]) := by
      intro ch hch
      rw [eq_of_mem_replicate hch]
      exact ⟨by decide, nofun⟩
    rw [longText, splitsRight_gsm7 hchars (by decide +kernel)]
    decide +kernel
  · have hchars : Chars (replicate 153 [(0x61 : UInt8)] ++ [[0x7b]]) := by
      intro ch hch
      obtain hch | hch := mem_append.1 hch
      · rw [eq_of_mem_replicate hch]
        exact ⟨by decide, nofun⟩
      · rw [mem_singleton.1 hch]
        exact ⟨by decide, nofun⟩
    rw [braceText, splitsRight_gsm7 hchars (by decide +kernel)]
    decide +kernel

end GemDroid.Sms
