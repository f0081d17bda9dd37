import GemDroid.Sms.Receiver
import GemDroid.Lib.Reach

/-! Runs of the receiver of SMS-SUBMIT messages (`telephony/sms.c`).

A fragment keeps as many slots as its first part has asked for. A later part is put into the slot
that it names if it is in order with its own number of parts, so it can be put behind the last
slot. Fragments are told apart by more bytes of an address than are read from a message. In runs
where neither matters the fragments are as they should be. -/
namespace GemDroid.Sms
open Lib List Option

variable {frag : SmsFragment} {rec : SmsReceiver} {address : SmsAddress} {p : Part}

structure Session where
  receiver : SmsReceiver
  added : Option (SmsAddress × UInt8 × Int)
  deriving DecidableEq

inductive Call where
  | add (pdu : SmsPdu) (stack : SmsAddress) (memory : Bool)
  | getText (e : Surroundings) (index utf8len : Int)
  | deliver (e : Surroundings) (index : Int) (sender : SmsAddress)

namespace Session

def exec (s : Session) : Call → Except Fault Session
  | .add pdu stack memory =>
    match readPart pdu stack with
    | .error fault => .error fault
    | .ok none => .ok ⟨s.receiver, none⟩
    | .ok (some p) => (s.receiver.addPart p pdu memory).map fun r => ⟨r.1, some (p.address, p.ref, r.2)⟩
  | .getText e index utf8len => (s.receiver.getTextMessage e index utf8len).map fun _ => ⟨s.receiver, none⟩
  | .deliver e index sender => (s.receiver.createDeliver e index sender).map fun r => ⟨r.1, none⟩

end Session

/-- A run goes on after calls that return. -/
def Calls (s : Except Fault Session) (c : Call) (s' : Except Fault Session) : Prop := ∃ t, s = .ok t ∧ s' = t.exec c

def Start (s : Except Fault Session) : Prop := s = .ok ⟨⟨0, []⟩, none⟩

/-! ### What is asked for -/

namespace SmsFragment

def For (frag : SmsFragment) (address : SmsAddress) (ref : UInt8) : Prop := frag.ref = ref ∧ frag.address.Same address

def Complete (frag : SmsFragment) : Prop := ∀ slot ∈ frag.pdus, slot.isSome = true

structure Wf (frag : SmsFragment) : Prop where
  slots : frag.pdus.length = frag.max.toNat
  count : frag.count.toNat = frag.pdus.countP isSome

end SmsFragment

structure SmsReceiver.Wf (rec : SmsReceiver) : Prop where
  fragments : ∀ frag ∈ rec.fragments, frag.Wf
  positive : ∀ frag ∈ rec.fragments, 0 < frag.index
  le_last : ∀ frag ∈ rec.fragments, frag.index ≤ rec.last
  distinct : rec.fragments.Pairwise fun f g => f.index ≠ g.index
  unique : rec.fragments.Pairwise fun f g => ¬ f.For g.address g.ref

/-- No call has gone wrong, the fragments are as they should be, and the index is returned exactly if
all parts are there. -/
def Right : Except Fault Session → Prop
  | .error _ => False
  | .ok s => s.receiver.Wf ∧ ∀ address ref result, s.added = some (address, ref, result) →
      (0 < result ↔ ∃ frag ∈ s.receiver.fragments, frag.For address ref ∧ frag.Complete)

/-- A part can be added: its address has at most 16 digits, and on the stack there is behind them what
was there for the fragment it belongs to; it goes into a slot of this fragment, or it is out of
order and the fragment is not complete. -/
structure SmsReceiver.Accepts (rec : SmsReceiver) (p : Part) : Prop where
  length : p.address.len ≤ 16
  stack : ∀ frag ∈ rec.fragments, frag.For p.address p.ref →
    frag.address.data.toList.take p.address.len.toNat = p.address.data.toList.take p.address.len.toNat
  last : rec.last + 1 < 2 ^ 31
  fits : ∀ frag ∈ rec.fragments, frag.For p.address p.ref →
    if 0 ≤ p.cur ∧ p.cur < p.max.toNat then p.cur < frag.max.toNat else frag.count ≠ frag.max
  fresh : (∀ frag ∈ rec.fragments, ¬ frag.For p.address p.ref) → p.max ≠ 0

def Readable (slot : Option SmsPdu) : Prop :=
  ∃ (pdu : SmsPdu) (text : List UInt8), slot = some pdu ∧ ∀ address rope utf8len,
    smspduGetTextMessage pdu address rope utf8len = .ok ((text.length : Int), text.take utf8len.toNat)

/-- The texts of a complete fragment can be read. -/
def SmsReceiver.Reads (rec : SmsReceiver) (index : Int) : Prop :=
  ∀ frag, rec.findIndex index = some frag → frag.count = frag.max → ∀ slot ∈ frag.pdus, Readable slot

def Session.Orderly (s : Session) : Call → Prop
  | .add pdu stack _ => ∃ r, readPart pdu stack = .ok r ∧ ∀ p, r = some p → s.receiver.Accepts p
  | .getText _ index _ => s.receiver.Reads index
  | .deliver _ index _ => s.receiver.Reads index

/-! ### Addresses -/

section Addresses
variable {a b : SmsAddress}

theorem SmsAddress.Same.symm (h : a.Same b) : b.Same a := by
  obtain ⟨hlen, htoa, hdata⟩ := h
  exact ⟨hlen.symm, htoa.symm, by rw [hlen, hdata]⟩

theorem SmsAddress.Same.trans {c : SmsAddress} (h : a.Same b) (h' : b.Same c) : a.Same c := by
  obtain ⟨hlen, htoa, hdata⟩ := h
  obtain ⟨hlen', htoa', hdata'⟩ := h'
  exact ⟨hlen.trans hlen', htoa.trans htoa', by rw [← hdata', ← hlen', hdata]⟩

theorem same_of_take (hlen : a.len = b.len) (htoa : a.toa = b.toa)
    (hdata : a.data.toList.take a.len.toNat = b.data.toList.take a.len.toNat) : a.Same b := by
  refine ⟨hlen, htoa, ?_⟩
  have hle : (b.len.toNat + 1) / 2 ≤ a.len.toNat := by
    rw [hlen]
    omega
  have hshort := congrArg (take ((b.len.toNat + 1) / 2)) hdata
  rwa [take_take, take_take, Nat.min_eq_left hle] at hshort

/-- For an address of at most 16 digits `sms_address_eq` returns, and says whether two are the same if
it is so for what lies behind the digits. -/
theorem smsAddressEq_spec (hlen : b.len ≤ 16)
    (hstack : a.Same b → a.data.toList.take b.len.toNat = b.data.toList.take b.len.toNat) :
    (a.Same b ∧ smsAddressEq a b = .ok true) ∨ (¬ a.Same b ∧ smsAddressEq a b = .ok false) := by
  rw [smsAddressEq]
  by_cases hhead : a.toa ≠ b.toa ∨ a.len ≠ b.len
  · rw [if_pos hhead]
    refine Or.inr ⟨fun hsame => ?_, rfl⟩
    obtain htoa | hne := hhead
    · exact htoa hsame.2.1
    · exact hne hsame.1
  rw [not_or, not_not, not_not] at hhead
  rw [if_neg (by simp [hhead.1, hhead.2])]
  by_cases hdata : a.data.toList.take a.len.toNat = b.data.toList.take a.len.toNat
  · have hshort : ¬ 16 < a.len := by
      rw [hhead.2]
      exact UInt8.not_lt.2 hlen
    rw [if_neg (not_not.2 hdata), if_neg hshort]
    exact Or.inl ⟨same_of_take hhead.2 hhead.1 hdata, rfl⟩
  rw [if_pos hdata]
  refine Or.inr ⟨fun hsame => ?_, rfl⟩
  have := hstack hsame
  rw [← hhead.2] at this
  exact hdata this

end Addresses

variable {frags : List SmsFragment}

theorem findP_spec (hlen : p.address.len ≤ 16) (hstack : ∀ frag ∈ frags, frag.For p.address p.ref →
      frag.address.data.toList.take p.address.len.toNat = p.address.data.toList.take p.address.len.toNat) :
    (∃ l₁ frag l₂, frags = l₁ ++ frag :: l₂ ∧ frag.For p.address p.ref ∧
      smsReceiverFindP p.address p.ref frags = .ok l₁.length) ∨
    ((∀ frag ∈ frags, ¬ frag.For p.address p.ref) ∧ smsReceiverFindP p.address p.ref frags = .ok frags.length) := by
  induction frags with
  | nil => exact Or.inr ⟨nofun, rfl⟩
  | cons node l ih =>
    have hrest := ih (forall_mem_cons.1 hstack).2
    -- what holds of the rest of the list, if the first fragment is not the one
    have hskip : ¬ node.For p.address p.ref →
        smsReceiverFindP p.address p.ref (node :: l) = (smsReceiverFindP p.address p.ref l).map (· + 1) →
        (∃ l₁ frag l₂, node :: l = l₁ ++ frag :: l₂ ∧ frag.For p.address p.ref ∧
          smsReceiverFindP p.address p.ref (node :: l) = .ok l₁.length) ∨
        ((∀ frag ∈ node :: l, ¬ frag.For p.address p.ref) ∧
          smsReceiverFindP p.address p.ref (node :: l) = .ok (node :: l).length) := by
      intro hnot hstep
      obtain ⟨l₁, frag, l₂, rfl, hfor, hfind⟩ | ⟨hnone, hfind⟩ := hrest
      · exact Or.inl ⟨node :: l₁, frag, l₂, rfl, hfor, by rw [hstep, hfind]; rfl⟩
      refine Or.inr ⟨?_, by rw [hstep, hfind]; rfl⟩
      intro frag hin
      obtain rfl | hin := mem_cons.1 hin
      · exact hnot
      · exact hnone frag hin
    by_cases href : node.ref = p.ref
    · have heq := smsAddressEq_spec hlen fun hsame => hstack node (mem_cons_self ..) ⟨href, hsame⟩
      obtain ⟨hsame, heq⟩ | ⟨hnot, heq⟩ := heq
      · refine Or.inl ⟨[], node, l, rfl, ⟨href, hsame⟩, ?_⟩
        simp [smsReceiverFindP, href, heq]
      · refine hskip (fun hfor => hnot hfor.2) ?_
        simp [smsReceiverFindP, href, heq]
    · refine hskip (fun hfor => href hfor.1) ?_
      simp [smsReceiverFindP, href]

/-! ### Storing a part -/

namespace SmsFragment

theorem Wf.count_le (h : frag.Wf) : frag.count.toNat ≤ frag.max.toNat := by
  rw [h.count, ← h.slots]
  exact countP_le_length

theorem Wf.complete_iff (h : frag.Wf) : frag.Complete ↔ frag.count = frag.max := by
  rw [← UInt8.toNat_inj, h.count, ← h.slots, countP_eq_length]
  rfl

/-- A part that goes into a slot is stored there, and the counter is right again. -/
theorem store_spec (h : frag.Wf) (cur : Nat) (hcur : cur < frag.max.toNat) (pdu : SmsPdu) :
    ∃ count pdus, frag.store cur pdu = .ok { frag with count := count, pdus := pdus } ∧
      Wf { frag with count := count, pdus := pdus } := by
  have hlt : cur < frag.pdus.length := h.slots ▸ hcur
  refine ⟨_, _, by rw [store, getElem?_eq_getElem hlt], ?_, ?_⟩
  · simp [h.slots]
  · have hmax := frag.max.toNat_lt
    have hslots := h.slots
    have hcount := h.count
    have hle := countP_le_length (p := isSome) (l := frag.pdus)
    rw [countP_set hlt]
    cases hold : frag.pdus[cur].isSome with
    | true =>
      have hpos : 0 < frag.pdus.countP isSome := countP_pos_iff.2 ⟨_, getElem_mem hlt, hold⟩
      simp only [if_true, isSome_some]
      rw [UInt8.sub_add_cancel]
      omega
    | false =>
      have hfree : frag.pdus.countP isSome ≠ frag.pdus.length := by
        intro hall
        have := countP_eq_length.1 hall _ (getElem_mem hlt)
        rw [hold] at this
        cases this
      simp only [Bool.false_eq_true, if_false, isSome_some, if_true]
      rw [UInt8.toNat_add, show (1 : UInt8).toNat = 1 from rfl]
      omega

theorem alloc_wf (p : Part) (index : Nat) : (smsFragmentAlloc p index).Wf := by
  constructor
  · simp [smsFragmentAlloc]
  · simp [smsFragmentAlloc, countP_replicate]

end SmsFragment

namespace SmsReceiver
variable {l₁ l₂ : List SmsFragment}

section
variable (h : rec.Wf)
include h

section
variable (hfrags : rec.fragments = l₁ ++ frag :: l₂)
include hfrags

theorem Wf.eq_of_for {ref : UInt8}
    (hfor : frag.For address ref) {f : SmsFragment} (hin : f ∈ rec.fragments) (hf : f.For address ref) : f = frag := by
  have hunique := h.unique
  rw [hfrags, pairwise_append, pairwise_cons] at hunique
  obtain ⟨-, ⟨hbehind, -⟩, hbefore⟩ := hunique
  rw [hfrags, mem_append, mem_cons] at hin
  obtain hin | rfl | hin := hin
  · exact absurd ⟨hf.1.trans hfor.1.symm, hf.2.trans hfor.2.symm⟩ (hbefore f hin frag (mem_cons_self ..))
  · rfl
  · exact absurd ⟨hfor.1.trans hf.1.symm, hfor.2.trans hf.2.symm⟩ (hbehind f hin)

theorem Wf.replace {count : UInt8}
    {pdus : List (Option SmsPdu)} (hfrag : SmsFragment.Wf { frag with count := count, pdus := pdus }) :
    Wf { rec with fragments := l₁ ++ { frag with count := count, pdus := pdus } :: l₂ } := by
  have hall {P : SmsFragment → Prop} (hnew : P { frag with count := count, pdus := pdus })
      (hold : ∀ f ∈ rec.fragments, P f) : ∀ f ∈ l₁ ++ { frag with count := count, pdus := pdus } :: l₂, P f := by
    rw [hfrags, forall_mem_append, forall_mem_cons] at hold
    exact forall_mem_append.2 ⟨hold.1, forall_mem_cons.2 ⟨hnew, hold.2.2⟩⟩
  have hin : frag ∈ rec.fragments := hfrags ▸ mem_append_right _ (mem_cons_self ..)
  have hkeys : (l₁ ++ { frag with count := count, pdus := pdus } :: l₂).map (fun f => (f.index, f.address, f.ref)) =
      rec.fragments.map fun f => (f.index, f.address, f.ref) := by
    rw [hfrags, map_append, map_append, map_cons, map_cons]
  constructor
  · exact hall hfrag h.fragments
  · exact hall (h.positive frag hin) h.positive
  · exact hall (h.le_last frag hin) h.le_last
  · have hdistinct : (rec.fragments.map fun f => (f.index, f.address, f.ref)).Pairwise fun x y => x.1 ≠ y.1 :=
      pairwise_map.2 h.distinct
    rw [← hkeys] at hdistinct
    have hpairs := pairwise_map.1 hdistinct
    exact hpairs
  · have hunique : (rec.fragments.map fun f => (f.index, f.address, f.ref)).Pairwise
        fun x y => ¬ (x.2.2 = y.2.2 ∧ x.2.1.Same y.2.1) := pairwise_map.2 h.unique
    rw [← hkeys] at hunique
    exact pairwise_map.1 hunique

end

theorem Wf.alloc (hnone : ∀ f ∈ rec.fragments, ¬ f.For p.address p.ref) :
    Wf ⟨rec.last + 1, rec.fragments ++ [smsFragmentAlloc p (rec.last + 1)]⟩ := by
  constructor
  · exact forall_mem_append.2 ⟨h.fragments, forall_mem_singleton.2 (SmsFragment.alloc_wf p _)⟩
  · exact forall_mem_append.2 ⟨h.positive, forall_mem_singleton.2 (Nat.succ_pos _)⟩
  · exact forall_mem_append.2 ⟨fun f hf => Nat.le_succ_of_le (h.le_last f hf), forall_mem_singleton.2 le_rfl⟩
  · refine pairwise_append.2 ⟨h.distinct, pairwise_singleton .., ?_⟩
    intro f hf g hg
    have := h.le_last f hf
    rw [mem_singleton.1 hg]
    exact Nat.ne_of_lt (Nat.lt_succ_of_le this)
  · refine pairwise_append.2 ⟨h.unique, pairwise_singleton .., ?_⟩
    intro f hf g hg
    rw [mem_singleton.1 hg]
    exact hnone f hf

theorem Wf.sublist (hsub : frags.Sublist rec.fragments) : Wf { rec with fragments := frags } where
  fragments := fun f hf => h.fragments f (hsub.subset hf)
  positive := fun f hf => h.positive f (hsub.subset hf)
  le_last := fun f hf => h.le_last f (hsub.subset hf)
  distinct := h.distinct.sublist hsub
  unique := h.unique.sublist hsub

theorem addTo_spec (hfrags : rec.fragments = l₁ ++ frag :: l₂) (hfor : frag.For p.address p.ref)
    (hfits : if 0 ≤ p.cur ∧ p.cur < p.max.toNat then p.cur < frag.max.toNat else frag.count ≠ frag.max) (pdu : SmsPdu) :
    ∃ rec' r, rec.addTo l₁.length frag p pdu = .ok (rec', r) ∧ rec'.Wf ∧
      (0 < r ↔ ∃ f ∈ rec'.fragments, f.For p.address p.ref ∧ f.Complete) := by
  have hin : frag ∈ rec.fragments := hfrags ▸ mem_append_right _ (mem_cons_self ..)
  rw [addTo]
  by_cases hcur : 0 ≤ p.cur ∧ p.cur < p.max.toNat
  · rw [if_pos hcur] at hfits
    obtain ⟨count, pdus, hstore, hfrag⟩ := SmsFragment.store_spec (h.fragments frag hin) p.cur.toNat (by omega) pdu
    have hset : rec.fragments.set l₁.length { frag with count := count, pdus := pdus } =
        l₁ ++ { frag with count := count, pdus := pdus } :: l₂ := by
      rw [hfrags, set_append_right _ _ le_rfl, Nat.sub_self, set_cons_zero]
    have hwf := h.replace hfrags hfrag
    refine ⟨_, _, by rw [if_neg (by omega), hstore]; rfl, ?_, ?_⟩
    · rw [hset]
      exact hwf
    · have hpos := h.positive frag hin
      have hcomplete : 0 < (if frag.max ≤ count then (frag.index : Int) else 0) ↔
          SmsFragment.Complete { frag with count := count, pdus := pdus } := by
        rw [hfrag.complete_iff]
        have hle := hfrag.count_le
        simp only at hle ⊢
        rw [← UInt8.toNat_inj]
        split
        next hall =>
          rw [UInt8.le_iff_toNat_le] at hall
          omega
        next hnot =>
          rw [UInt8.not_le, UInt8.lt_iff_toNat_lt] at hnot
          omega
      rw [hset, hcomplete]
      constructor
      · intro hall
        exact ⟨_, mem_append_right _ (mem_cons_self ..), hfor, hall⟩
      · intro hex
        obtain ⟨f, hf, hffor, hall⟩ := hex
        obtain rfl := hwf.eq_of_for rfl hfor hf hffor
        exact hall
  · rw [if_neg hcur] at hfits
    refine ⟨rec, -1, by rw [if_pos (by omega)], h, ?_⟩
    constructor
    · intro hlt
      omega
    · intro hex
      obtain ⟨f, hf, hffor, hall⟩ := hex
      obtain rfl := h.eq_of_for hfrags hfor hf hffor
      exact absurd ((h.fragments f hin).complete_iff.1 hall) hfits

theorem addPart_spec (ha : rec.Accepts p) (pdu : SmsPdu) (memory : Bool) :
    ∃ rec' r, rec.addPart p pdu memory = .ok (rec', r) ∧ rec'.Wf ∧
      (0 < r ↔ ∃ f ∈ rec'.fragments, f.For p.address p.ref ∧ f.Complete) := by
  obtain ⟨l₁, frag, l₂, hfrags, hfor, hfind⟩ | ⟨hnone, hfind⟩ := findP_spec ha.length ha.stack
  · have hin : frag ∈ rec.fragments := hfrags ▸ mem_append_right _ (mem_cons_self ..)
    have hget : rec.fragments[l₁.length]? = some frag := by
      rw [hfrags, getElem?_append_right le_rfl, Nat.sub_self, getElem?_cons_zero]
    have hadd := addTo_spec h hfrags hfor (ha.fits frag hin hfor) pdu
    simpa only [addPart, hfind, hget] using hadd
  have hget : rec.fragments[rec.fragments.length]? = none := getElem?_eq_none le_rfl
  cases memory with
  | false =>
    refine ⟨rec, -1, by simp only [addPart, hfind, hget]; rfl, h, ?_⟩
    constructor
    · intro hlt
      omega
    · intro hex
      obtain ⟨f, hf, hffor, -⟩ := hex
      exact absurd hffor (hnone f hf)
  | true =>
    have hmax := ha.fresh hnone
    have hfits : if 0 ≤ p.cur ∧ p.cur < p.max.toNat then p.cur < (smsFragmentAlloc p (rec.last + 1)).max.toNat
        else (smsFragmentAlloc p (rec.last + 1)).count ≠ (smsFragmentAlloc p (rec.last + 1)).max := by
      split
      next hcur => exact hcur.2
      · exact hmax.symm
    have hfor : (smsFragmentAlloc p (rec.last + 1)).For p.address p.ref := ⟨rfl, rfl, rfl, rfl⟩
    have hadd := addTo_spec (h.alloc hnone) rfl hfor hfits pdu
    simpa only [addPart, hfind, hget, SmsReceiver.alloc, if_pos ha.last, if_true] using hadd

end

end SmsReceiver

/-! ### Reading texts -/

theorem Readable.text {slot : Option SmsPdu} (h : Readable slot) :
    ∃ (pdu : SmsPdu) (text : List UInt8), slot = some pdu ∧ text.length ≤ 1020 ∧ ∀ address rope utf8len,
      smspduGetTextMessage pdu address rope utf8len = .ok ((text.length : Int), text.take utf8len.toNat) := by
  obtain ⟨pdu, text, rfl, hread⟩ := h
  have hle := smspduGetTextMessage_le rfl (hread ⟨0, 0, Vector.replicate 16 0⟩ gsmRopeInitAlloc 0)
  exact ⟨pdu, text, rfl, by omega, hread⟩

section Texts
variable {rope : GsmRope} {slots : List (Option SmsPdu)}

section
variable (hread : ∀ slot ∈ slots, Readable slot) (total : Int) (htotal : 0 ≤ total) (utf8len : Int)
include hread total htotal utf8len

theorem partTexts_spec :
    ∃ n texts, partTexts address rope slots total utf8len = .ok (n, texts) ∧ 0 ≤ n ∧ n ≤ total + 1020 * slots.length := by
  induction slots generalizing total utf8len with
  | nil => exact ⟨total, [], rfl, htotal, by simp⟩
  | cons slot slots ih =>
    obtain ⟨pdu, text, rfl, hle, hslot⟩ := (hread slot (mem_cons_self ..)).text
    have hrest := ih (forall_mem_cons.1 hread).2 (total + text.length) (by omega)
      (if 0 < utf8len then utf8len - text.length else utf8len)
    obtain ⟨n, texts, hok, hn, hbound⟩ := hrest
    refine ⟨n, (total, text.take (if 0 < utf8len then utf8len else 0).toNat) :: texts, ?_, hn, ?_⟩
    · rw [partTexts, hslot]
      simp only
      rw [if_neg (fun hand => absurd hand.1 (by omega)), hok]
      rfl
    · rw [length_cons]
      omega

theorem deliverTexts_spec : ∃ texts, deliverTexts address rope utf8len slots total = .ok texts := by
  induction slots generalizing total with
  | nil => exact ⟨[], rfl⟩
  | cons slot slots ih =>
    obtain ⟨pdu, text, rfl, -, hslot⟩ := (hread slot (mem_cons_self ..)).text
    obtain ⟨texts, hok⟩ := ih (forall_mem_cons.1 hread).2 (total + text.length) (by omega)
    refine ⟨(total, text.take (utf8len - total).toNat) :: texts, ?_⟩
    rw [deliverTexts, hslot]
    simp only
    rw [if_neg (fun hand => absurd hand.1 (by omega)), hok]
    rfl

end

end Texts

namespace SmsReceiver
variable {index : Int}

theorem getTextMessage_spec (hreads : rec.Reads index) (e : Surroundings) (utf8len : Int) :
    ∃ n texts, rec.getTextMessage e index utf8len = .ok (n, texts) ∧ n < 2 ^ 30 := by
  rw [getTextMessage]
  split
  · exact ⟨-1, [], rfl, by omega⟩
  next frag hfind =>
    by_cases hcount : frag.count = frag.max
    · rw [if_neg (not_not.2 hcount)]
      have hread : ∀ slot ∈ frag.pdus.take frag.count.toNat, Readable slot :=
        fun slot hin => hreads frag hfind hcount slot (mem_of_mem_take hin)
      obtain ⟨n, texts, hok, -, hbound⟩ := partTexts_spec hread 0 (Int.le_refl 0) utf8len
      refine ⟨n, texts, hok, ?_⟩
      have hlen : (frag.pdus.take frag.count.toNat).length ≤ frag.count.toNat := length_take_le ..
      have hmax := frag.count.toNat_lt
      omega
    · rw [if_pos hcount]
      exact ⟨-1, [], rfl, by omega⟩

/-- `sms_receiver_create_deliver` returns, and takes a fragment off the list at most. -/
theorem createDeliver_spec (h : rec.Wf) (hreads : rec.Reads index) (e : Surroundings) (sender : SmsAddress) :
    ∃ rec' r, rec.createDeliver e index sender = .ok (rec', r) ∧ rec'.Wf := by
  have hremove : (rec.remove index).Wf := h.sublist eraseP_sublist
  rw [createDeliver]
  split
  · exact ⟨rec, none, rfl, h⟩
  next frag hfind =>
    by_cases hcount : frag.count = frag.max
    · rw [if_neg (not_not.2 hcount)]
      have hread : ∀ slot ∈ frag.pdus.take frag.count.toNat, Readable slot :=
        fun slot hin => hreads frag hfind hcount slot (mem_of_mem_take hin)
      obtain ⟨n, texts, hget, hn⟩ := getTextMessage_spec hreads e 0
      rw [hget]
      simp only
      split
      · exact ⟨_, _, rfl, hremove⟩
      obtain ⟨texts, htexts⟩ := deliverTexts_spec hread 0 (Int.le_refl 0) n
      rw [htexts]
      simp only
      have hlen : (bufText e.buf texts n.toNat).length < 2 ^ 30 := by
        rw [bufText, length_map, length_range]
        omega
      obtain ⟨pdus, hpdus⟩ := isSome_iff_exists.1 (smspduCreateDeliverUtf8_isSome hlen sender e.now e.refNum)
      rw [hpdus]
      exact ⟨_, _, rfl, hremove⟩
    · rw [if_pos hcount]
      exact ⟨rec, none, rfl, h⟩

end SmsReceiver

/-! ### Main result -/

theorem Right.step {s s' : Except Fault Session} {c : Call} (h : Right s) (horderly : ∀ t, s = .ok t → t.Orderly c)
    (hcalls : Calls s c s') : Right s' := by
  obtain ⟨t, rfl, rfl⟩ := hcalls
  have ht := horderly t rfl
  obtain ⟨hwf, -⟩ := h
  cases c with
  | add pdu stack memory =>
    obtain ⟨r, hread, haccepts⟩ := ht
    rw [Session.exec, hread]
    cases r with
    | none => exact ⟨hwf, nofun⟩
    | some p =>
      obtain ⟨rec', r, hadd, hwf', hresult⟩ := SmsReceiver.addPart_spec hwf (haccepts p rfl) pdu memory
      simp only
      rw [hadd]
      refine ⟨hwf', ?_⟩
      intro address ref result heq
      cases heq
      exact hresult
  | getText e index utf8len =>
    obtain ⟨n, texts, hget, -⟩ := SmsReceiver.getTextMessage_spec ht e utf8len
    rw [Session.exec, hget]
    exact ⟨hwf, nofun⟩
  | deliver e index sender =>
    obtain ⟨rec', r, hdeliver, hwf'⟩ := SmsReceiver.createDeliver_spec hwf ht e sender
    rw [Session.exec, hdeliver]
    exact ⟨hwf', nofun⟩

/-- In every run of calls that are in order, no call goes wrong, every part is in a slot of its
fragment, the counters are right, indexes are positive and distinct, there is one fragment for an
address and a reference, and the index is returned exactly if all parts are there. -/
theorem fragments_right (s : Except Fault Session)
    (h : Reach Start (fun s c s' => (∀ t, s = .ok t → t.Orderly c) ∧ Calls s c s') s) : Right s := by
  refine h.invariant ?_ fun _ _ _ hs hstep => hs.step hstep.1 hstep.2
  intro s hstart
  rw [hstart]
  exact ⟨⟨nofun, nofun, nofun, List.Pairwise.nil, List.Pairwise.nil⟩, nofun⟩

def submitPart (max number : UInt8) : SmsPdu :=
  ⟨[0, 0x41, 0, 12, 0x91, 0x55, 0x55, 0x55, 0x08, 0x55, 0x55, 0, 0, 8, 5, 0, 3, 7, max, number, 0x30], 1⟩

def submitAddress (junk : UInt8) : SmsAddress :=
  ⟨12, 0x91, #v[0x55, 0x55, 0x55, 0x08, 0x55, 0x55, junk, junk, junk, junk, junk, junk, junk, junk, junk, junk]⟩

def stackRecord (junk : UInt8) : SmsAddress := ⟨0, 0, Vector.replicate 16 junk⟩

/-- Nothing has been added. -/
def emptySession : Session := ⟨⟨0, []⟩, none⟩

def firstPart : Session :=
  ⟨⟨1, [⟨submitAddress 0, 7, 2, 1, 1, [some (submitPart 2 1), none]⟩]⟩, some (submitAddress 0, 7, 0)⟩

/-- The second of two parts has been added with other bytes on the stack. -/
def strayPart : Session :=
  ⟨⟨2, [⟨submitAddress 0, 7, 2, 1, 1, [some (submitPart 2 1), none]⟩,
    ⟨submitAddress 1, 7, 2, 1, 2, [none, some (submitPart 2 2)]⟩]⟩, some (submitAddress 1, 7, 0)⟩

theorem calls_firstPart : Calls (.ok emptySession) (.add (submitPart 2 1) (stackRecord 0) true) (.ok firstPart) :=
  ⟨emptySession, rfl, by decide +kernel⟩

def bothParts : Session :=
  ⟨⟨1, [⟨submitAddress 0, 7, 2, 2, 1, [some (submitPart 2 1), some (submitPart 2 2)]⟩]⟩, some (submitAddress 0, 7, 1)⟩

/-- The second part finds its fragment, as the stack has not changed. -/
theorem bothParts_right : Right (.ok firstPart) ∧ Right (.ok bothParts) := by
  have hfirst : Reach Start (fun s c s' => (∀ t, s = .ok t → t.Orderly c) ∧ Calls s c s') (.ok firstPart) := by
    refine .step (.start rfl) ⟨?_, calls_firstPart⟩
    intro t ht
    cases ht
    refine ⟨some ⟨submitAddress 0, 7, 2, 0⟩, by decide +kernel, ?_⟩
    intro p hp
    cases hp
    exact ⟨by decide, nofun, by decide, nofun, fun _ => by decide⟩
  refine ⟨fragments_right _ hfirst, fragments_right _ (.step (a := .add (submitPart 2 2) (stackRecord 0) true) hfirst ⟨?_, ?_⟩)⟩
  · intro t ht
    cases ht
    refine ⟨some ⟨submitAddress 0, 7, 2, 1⟩, by decide +kernel, ?_⟩
    intro p hp
    cases hp
    refine ⟨by decide, ?_, by decide, ?_, fun _ => by decide⟩
    · intro frag hfrag _
      rw [mem_singleton.1 hfrag]
    · intro frag hfrag _
      rw [mem_singleton.1 hfrag]
      decide
  · exact ⟨firstPart, rfl, by decide +kernel⟩

/-- The third of three parts is put behind the two slots of its fragment; and the second of two parts
gets a fragment of its own, if the stack has changed. -/
theorem parts_go_wrong : Reach Start Calls (.error .outOfBounds) ∧ ¬ Right (.error .outOfBounds) ∧
    Reach Start Calls (.ok strayPart) ∧ ¬ Right (.ok strayPart) := by
  have hfirst : Reach Start Calls (.ok firstPart) := .step (.start rfl) calls_firstPart
  refine ⟨.step (a := .add (submitPart 3 3) (stackRecord 0) true) hfirst ⟨firstPart, rfl, by decide +kernel⟩, id,
    .step (a := .add (submitPart 2 2) (stackRecord 1) true) hfirst ⟨firstPart, rfl, by decide +kernel⟩, ?_⟩
  intro hright
  exact rel_of_pairwise_cons hright.1.unique (mem_singleton.2 rfl) ⟨rfl, rfl, rfl, rfl⟩

/-! ### Parts that are refused -/

namespace SmsReceiver

def addSubmitPdu (rec : SmsReceiver) (pdu : SmsPdu) (stack : SmsAddress) (memory : Bool) :
    Except Fault (SmsReceiver × Int) :=
  match readPart pdu stack with
  | .error fault => .error fault
  | .ok none => .ok (rec, -1)
  | .ok (some p) => rec.addPart p pdu memory

/-- A part whose number is one of its message, or for which there is a fragment already. -/
def Expects (rec : SmsReceiver) (p : Part) : Prop :=
  (0 ≤ p.cur ∧ p.cur < p.max.toNat) ∨ ∃ i < rec.fragments.length, smsReceiverFindP p.address p.ref rec.fragments = .ok i

theorem addTo_failed {rec' : SmsReceiver} {i : Nat} {pdu : SmsPdu}
    (h : rec.addTo i frag p pdu = .ok (rec', -1)) : rec' = rec ∧ ¬ (0 ≤ p.cur ∧ p.cur < p.max.toNat) := by
  rw [addTo] at h
  split at h
  next hcur =>
    cases h
    exact ⟨rfl, by omega⟩
  · cases hs : frag.store p.cur.toNat pdu with
    | error fault => rw [hs] at h; cases h
    | ok frag' =>
      rw [hs] at h
      have hresult := congrArg Prod.snd (Except.ok.inj h)
      dsimp only at hresult
      split at hresult <;> omega

/-- A receiver that returns -1 is left as it was, unless the part comes with a number that is none of
its message and is the first of it. -/
theorem failed_unchanged_iff (rec : SmsReceiver) (pdu : SmsPdu) (stack : SmsAddress) (memory : Bool) (rec' : SmsReceiver)
    (h : rec.addSubmitPdu pdu stack memory = .ok (rec', -1)) :
    rec' = rec ↔ (memory = true → ∀ p, readPart pdu stack = .ok (some p) → rec.Expects p) := by
  rw [addSubmitPdu] at h
  cases hread : readPart pdu stack with
  | error fault => rw [hread] at h; cases h
  | ok part =>
    rw [hread] at h
    cases part with
    | none => cases h; simp
    | some p =>
      dsimp only at h
      rw [addPart] at h
      cases hfind : smsReceiverFindP p.address p.ref rec.fragments with
      | error fault => rw [hfind] at h; cases h
      | ok i =>
        rw [hfind] at h
        dsimp only at h
        cases hfrag : rec.fragments[i]? with
        | some frag =>
          rw [hfrag] at h
          refine iff_of_true (addTo_failed h).1 fun _ p hp => ?_
          cases hp
          exact .inr ⟨i, (List.getElem?_eq_some_iff.1 hfrag).1, hfind⟩
        | none =>
          rw [hfrag] at h
          cases memory with
          | false => cases h; simp
          | true =>
            have hlast : rec.last + 1 < 2 ^ 31 := by
              by_contra hlast
              simp only [alloc, if_neg hlast, if_true, reduceCtorEq] at h
            simp only [alloc, if_pos hlast, if_true] at h
            -- a fragment has been linked in, and is left there
            obtain ⟨hsame, hcur⟩ := addTo_failed h
            refine iff_of_false (fun hrec => ?_) fun hexpects => ?_
            · have hlength := congrArg (·.fragments.length) (hsame.symm.trans hrec)
              simp at hlength
            · obtain hp | ⟨j, hj, hfound⟩ := hexpects rfl p rfl
              · exact hcur hp
              · cases hfound.symm.trans hfind
                exact absurd hj (getElem?_eq_none_iff.1 hfrag).not_gt

/-- The third of two parts, behind the first of them. -/
theorem third_unchanged : ∃ rec', firstPart.receiver.addSubmitPdu (submitPart 2 3) (stackRecord 0) true = .ok (rec', -1) ∧
    rec' = firstPart.receiver := by
  have h : firstPart.receiver.addSubmitPdu (submitPart 2 3) (stackRecord 0) true = .ok (firstPart.receiver, -1) := by
    decide +kernel
  refine ⟨_, h, (failed_unchanged_iff _ _ _ _ _ h).2 fun _ p hp => .inr ⟨0, by decide, ?_⟩⟩
  have hread : readPart (submitPart 2 3) (stackRecord 0) = .ok (some ⟨submitAddress 0, 7, 2, 2⟩) := by decide +kernel
  cases hread.symm.trans hp
  decide +kernel

/-- The third of two parts leaves an empty fragment, if it comes first. -/
theorem third_first_changed : ∃ rec', addSubmitPdu ⟨0, []⟩ (submitPart 2 3) (stackRecord 0) true = .ok (rec', -1) ∧
    rec' ≠ ⟨0, []⟩ :=
  ⟨⟨1, [⟨submitAddress 0, 7, 2, 0, 1, [none, none]⟩]⟩, by decide +kernel, by decide⟩

end SmsReceiver

end GemDroid.Sms
