import GemDroid.Telephony.Modem
import GemDroid.Lib.Reach
import Mathlib.Combinatorics.Pigeonhole

/-! The calls and their timers over whole runs.

`Sound` is the invariant: live calls have distinct ids, every timer that is not free
belongs to one live call, and a pending timer has the address of the slot its call is in.
Two steps can break it. Freeing a call moves those behind it to other slots, and leaves a
copy of the last one behind; and `amodem_update_call` changes the state of a call whose
timer still counts on it. The runs that keep the invariant are those without such steps. -/
namespace GemDroid.Telephony
open Function List

variable {k j slot n : Nat} {cmd : List Char}

variable {m m' : Modem} {isRemoteNumber : List Char → Bool}

def CallState.Rings (s : CallState) : Prop := s = .dialing ∨ s = .alerting

/-- Live calls and timers are as they should be. -/
structure Sound (m : Modem) : Prop where
  count : m.callCount ≤ maxCalls
  ids : ∀ i j, i < m.callCount → j < m.callCount → (m.calls i).id = (m.calls j).id → i = j
  tags : ∀ i j, i < m.callCount → j < m.callCount → (m.calls i).tag = (m.calls j).tag → i = j
  recent : ∀ i, i < m.callCount → (m.calls i).tag < m.nextTag
  pending : ∀ t a, m.armed t = some a → a.slot < m.callCount ∧
    (m.calls a.slot).timer = some t ∧ (m.calls a.slot).tag = a.tag ∧ (m.calls a.slot).state.Rings
  timers : ∀ i j t, i < m.callCount → j < m.callCount → (m.calls i).timer = some t → (m.calls j).timer = some t → i = j
  owned : ∀ i t, i < m.callCount → (m.calls i).timer = some t → t ∉ m.freeTimers ∧ m.owner t = (m.calls i).tag
  nodup : m.freeTimers.Nodup
  pool : ∀ t, t < maxTimers → t ∈ m.freeTimers ∨ ∃ i, i < m.callCount ∧ (m.calls i).timer = some t

theorem sound_fresh : Sound freshModem := by
  constructor <;> simp [freshModem, nodup_range]

section Fields
variable {f : VoiceCall → VoiceCall}

@[simp] theorem Modem.modify_callCount : (m.modify k f).callCount = m.callCount := rfl
@[simp] theorem Modem.modify_freeTimers : (m.modify k f).freeTimers = m.freeTimers := rfl
@[simp] theorem Modem.modify_armed : (m.modify k f).armed = m.armed := rfl
@[simp] theorem Modem.modify_owner : (m.modify k f).owner = m.owner := rfl
@[simp] theorem Modem.modify_self : (m.modify k f).calls k = f (m.calls k) := by simp [modify]

theorem Modem.modify_of_ne (h : j ≠ k) : (m.modify k f).calls j = m.calls j := by
  simp [modify, update_of_ne h]

end Fields

open Modem

section States

section
variable (h : Sound m)
include h

/-- Only the states of calls change, and none that a pending timer counts on. -/
theorem Sound.congr (hcount : m'.callCount = m.callCount)
    (hcalls : ∀ k, k < m.callCount → (m'.calls k).id = (m.calls k).id ∧
      (m'.calls k).tag = (m.calls k).tag ∧ (m'.calls k).timer = (m.calls k).timer)
    (hfree : m'.freeTimers = m.freeTimers) (howner : m'.owner = m.owner)
    (hnext : m'.nextTag = m.nextTag) (harmed : ∀ t a, m'.armed t = some a → m.armed t = some a)
    (hstate : ∀ t a, m'.armed t = some a → (m'.calls a.slot).state.Rings) : Sound m' := by
  constructor
  · rw [hcount]
    exact h.count
  · intro i j hi hj
    rw [hcount] at hi hj
    rw [(hcalls i hi).1, (hcalls j hj).1]
    exact h.ids i j hi hj
  · intro i j hi hj
    rw [hcount] at hi hj
    rw [(hcalls i hi).2.1, (hcalls j hj).2.1]
    exact h.tags i j hi hj
  · intro i hi
    rw [hcount] at hi
    rw [(hcalls i hi).2.1, hnext]
    exact h.recent i hi
  · intro t a ha
    obtain ⟨hslot, htimer, htag, -⟩ := h.pending t a (harmed t a ha)
    rw [hcount, (hcalls _ hslot).2.1, (hcalls _ hslot).2.2]
    exact ⟨hslot, htimer, htag, hstate t a ha⟩
  · intro i j t hi hj
    rw [hcount] at hi hj
    rw [(hcalls i hi).2.2, (hcalls j hj).2.2]
    exact h.timers i j t hi hj
  · intro i t hi
    rw [hcount] at hi
    rw [(hcalls i hi).2.2, (hcalls i hi).2.1, hfree, howner]
    exact h.owned i t hi
  · rw [hfree]
    exact h.nodup
  · intro t ht
    rw [hfree, hcount]
    rcases h.pool t ht with hf | ⟨i, hi, ht'⟩
    · exact .inl hf
    · exact .inr ⟨i, hi, by rw [(hcalls i hi).2.2, ht']⟩

theorem Sound.callSetState {state : CallState} (hs : ∀ t a, m.armed t = some a → a.slot = slot → state.Rings) :
    Sound (callSetState m slot state) := by
  refine h.congr rfl (fun k _ => ?_) rfl rfl rfl (fun t a ha => ha) (fun t a ha => ?_)
  · by_cases hk : k = slot
    · subst hk
      simp [Telephony.callSetState]
    · simp [Telephony.callSetState, modify_of_ne hk]
  · by_cases hk : a.slot = slot
    · simpa [Telephony.callSetState, hk] using hs t a ha hk
    · simpa [Telephony.callSetState, modify_of_ne hk] using (h.pending t a ha).2.2.2

theorem Sound.mapStates {f : VoiceCall → CallState}
    (hf : ∀ c : VoiceCall, c.state.Rings → f c = c.state) : Sound (mapStates m f) := by
  refine h.congr rfl (fun k _ => ?_) rfl rfl rfl (fun t a ha => ha) (fun t a ha => ?_)
  · simp only [Telephony.mapStates]
    split <;> exact ⟨rfl, rfl, rfl⟩
  · obtain ⟨hslot, -, -, hr⟩ := h.pending t a ha
    simp only [Telephony.mapStates, hslot, if_true, hf _ hr]
    exact hr

theorem Sound.acceptFirstHeld : Sound (acceptFirstHeld m) := by
  unfold Telephony.acceptFirstHeld
  split
  · rename_i nn hfind
    refine h.callSetState fun t a ha hs => ?_
    have hheld := List.find?_some hfind
    have hr := (h.pending t a ha).2.2.2
    simp only [Bool.and_eq_true, beq_iff_eq] at hheld
    rw [hs, hheld.2] at hr
    rcases hr with hr | hr <;> cases hr
  · exact h

end

end States

section Free
variable {nn : Nat}

def slotBefore (nn k : Nat) : Nat := if k < nn then k else k + 1

theorem slotBefore_inj {i : Nat} (h : slotBefore nn i = slotBefore nn j) : i = j := by
  unfold slotBefore at h
  split at h <;> split at h <;> omega

theorem slotBefore_ne (k : Nat) : slotBefore nn k ≠ nn := by
  unfold slotBefore
  split <;> omega

theorem slotBefore_lt (h : k < n - 1) : slotBefore nn k < n := by
  unfold slotBefore
  split <;> omega

theorem exists_slotBefore (hj : j < n) (hne : j ≠ nn) (hnn : nn < n) : ∃ k, k < n - 1 ∧ slotBefore nn k = j := by
  by_cases h : j < nn
  · exact ⟨j, by omega, by simp [slotBefore, h]⟩
  · exact ⟨j - 1, by omega, by rw [slotBefore, if_neg (by omega)]; omega⟩

structure Freed (m : Modem) (nn : Nat) (m' : Modem) : Prop where
  count : m'.callCount = m.callCount - 1
  calls : ∀ k, k < m.callCount - 1 → m'.calls k = m.calls (slotBefore nn k)
  free : m'.freeTimers = (m.calls nn).timer.toList ++ m.freeTimers
  armed : ∀ t, m'.armed t = if (m.calls nn).timer = some t then none else m.armed t
  owner : m'.owner = m.owner
  next : m'.nextTag = m.nextTag

theorem Sound.freeCall_freed (h : Sound m) (hnn : nn < m.callCount) : ∃ m', m.freeCall nn = .ok m' ∧ Freed m nn m' := by
  have hshift : ∀ (calls : Nat → VoiceCall) k, k < m.callCount - 1 → (∀ j, j ≠ nn → calls j = m.calls j) →
      (if nn ≤ k ∧ k + 1 < m.callCount then calls (k + 1) else calls k) = m.calls (slotBefore nn k) := by
    intro calls k hk hcalls
    unfold slotBefore
    by_cases hlt : k < nn
    · rw [if_neg (by omega), if_pos hlt, hcalls k (by omega)]
    · rw [if_pos (by omega), if_neg hlt, hcalls (k + 1) (by omega)]
  cases ht : (m.calls nn).timer with
  | none =>
    refine ⟨(m.modify nn fun c => { c with isRemote := false }).removeSlot nn, ?_, rfl,
      fun k hk => ?_, ?_, fun t => ?_, rfl, rfl⟩
    · simp only [freeCall, ht, pure_bind]
      exact if_pos hnn
    · exact hshift _ k hk fun j hj => modify_of_ne hj
    all_goals simp [ht, removeSlot]
  | some t =>
    obtain ⟨hfree, howner⟩ := h.owned nn t hnn ht
    have hdestroy : m.sysTimerDestroy t (m.calls nn).tag = .ok { m with
        armed := update m.armed t none, freeTimers := t :: m.freeTimers } := by
      simp [sysTimerDestroy, if_neg hfree, howner]
    refine ⟨((({ m with
        armed := update m.armed t none
        freeTimers := t :: m.freeTimers } : Modem).modify nn fun c => { c with timer := none }).modify
          nn fun c => { c with isRemote := false }).removeSlot nn,
      ?_, rfl, fun k hk => ?_, ?_, fun u => ?_, rfl, rfl⟩
    · simp only [freeCall, ht, hdestroy]
      exact if_pos hnn
    · exact hshift _ k hk fun j hj => by rw [modify_of_ne hj, modify_of_ne hj]
    · simp [ht, removeSlot]
    · simp only [removeSlot, modify_armed, ht, Option.some.injEq]
      by_cases hu : u = t
      · subst hu
        simp
      · rw [update_of_ne hu, if_neg fun he => hu he.symm]

/-- The invariant survives when no pending timer has the address of a slot behind the call. -/
theorem Freed.sound (hf : Freed m nn m') (h : Sound m) (hnn : nn < m.callCount)
    (hbehind : ∀ t a, m.armed t = some a → a.slot ≤ nn) : Sound m' := by
  have hlt : ∀ k, k < m'.callCount → slotBefore nn k < m.callCount := fun k hk =>
    slotBefore_lt (by rwa [hf.count] at hk)
  have hcalls : ∀ k, k < m'.callCount → m'.calls k = m.calls (slotBefore nn k) := fun k hk =>
    hf.calls k (by rwa [hf.count] at hk)
  have hother : ∀ k t, k < m'.callCount → (m'.calls k).timer = some t → (m.calls nn).timer ≠ some t := by
    intro k t hk ht he
    rw [hcalls k hk] at ht
    exact slotBefore_ne k (h.timers _ _ t (hlt k hk) hnn ht he)
  constructor
  · have := h.count
    rw [hf.count]
    omega
  · intro i j hi hj he
    rw [hcalls i hi, hcalls j hj] at he
    exact slotBefore_inj (h.ids _ _ (hlt i hi) (hlt j hj) he)
  · intro i j hi hj he
    rw [hcalls i hi, hcalls j hj] at he
    exact slotBefore_inj (h.tags _ _ (hlt i hi) (hlt j hj) he)
  · intro i hi
    rw [hcalls i hi, hf.next]
    exact h.recent _ (hlt i hi)
  · intro t a ha
    rw [hf.armed] at ha
    split at ha
    · cases ha
    rename_i hne
    obtain ⟨hslot, htimer, htag, hr⟩ := h.pending t a ha
    -- the call is in front of the one that goes, so it keeps its slot
    have hfront : a.slot < nn := by
      rcases Nat.lt_or_eq_of_le (hbehind t a ha) with hlt | heq
      · exact hlt
      · exact absurd (heq ▸ htimer) hne
    have hsame : slotBefore nn a.slot = a.slot := if_pos hfront
    have hslot' : a.slot < m'.callCount := by
      rw [hf.count]
      omega
    rw [hcalls _ hslot', hsame]
    exact ⟨hslot', htimer, htag, hr⟩
  · intro i j t hi hj hti htj
    rw [hcalls i hi] at hti
    rw [hcalls j hj] at htj
    exact slotBefore_inj (h.timers _ _ t (hlt i hi) (hlt j hj) hti htj)
  · intro i t hi ht
    have hne := hother i t hi ht
    rw [hcalls i hi] at ht ⊢
    obtain ⟨hfree, howner⟩ := h.owned _ t (hlt i hi) ht
    rw [hf.free, hf.owner]
    refine ⟨fun hm => ?_, howner⟩
    rcases mem_append.1 hm with hm | hm
    · exact hne (by simpa using hm)
    · exact hfree hm
  · rw [hf.free]
    cases ht : (m.calls nn).timer with
    | none => exact h.nodup
    | some t => exact nodup_cons.2 ⟨(h.owned nn t hnn ht).1, h.nodup⟩
  · intro t ht
    rw [hf.free]
    rcases h.pool t ht with hfree | ⟨i, hi, hti⟩
    · exact .inl (mem_append_right _ hfree)
    by_cases hin : i = nn
    · subst hin
      exact .inl (mem_append_left _ (by simp [hti]))
    · obtain ⟨k, hk, rfl⟩ := exists_slotBefore hi hin hnn
      exact .inr ⟨k, by rwa [hf.count], by rw [hf.calls k hk, hti]⟩

theorem Sound.freeCall (h : Sound m) (hnn : nn < m.callCount) (hbehind : ∀ t a, m.armed t = some a → a.slot ≤ nn) :
    ∃ m', m.freeCall nn = .ok m' ∧ Freed m nn m' ∧ Sound m' := by
  obtain ⟨m', hm, hf⟩ := h.freeCall_freed hnn
  exact ⟨m', hm, hf, hf.sound h hnn hbehind⟩

theorem Sound.releaseLoop {release : VoiceCall → Bool} {state : VoiceCall → CallState}
    (hring : ∀ c : VoiceCall, c.state.Rings → state c = c.state) (h : Sound m) (hn : nn + n = m.callCount)
    (hbehind : ∀ k, nn ≤ k → k < m.callCount → (m.calls k).mode = .voice →
      release (m.calls k) = true → ∀ t a, m.armed t = some a → a.slot ≤ k) :
    ∃ m', releaseLoop release state n nn m = .ok m' ∧ Sound m' := by
  induction n generalizing nn m with
  | zero => exact ⟨m, rfl, h⟩
  | succ n ih =>
    rw [Telephony.releaseLoop]
    by_cases hmode : (m.calls nn).mode = .voice
    · rw [if_neg (by simpa using hmode)]
      by_cases hrel : release (m.calls nn) = true
      · rw [if_pos hrel]
        have hnn : nn < m.callCount := by omega
        obtain ⟨m1, hm1, hf, h1⟩ := h.freeCall hnn (hbehind nn le_rfl hnn hmode hrel)
        rw [hm1]
        refine ih h1 (by rw [hf.count]; omega) fun k hk _ _ _ t a ha => ?_
        -- the timers still pending are those of calls in front
        rw [hf.armed] at ha
        split at ha
        · cases ha
        · exact (hbehind nn le_rfl hnn hmode hrel t a ha).trans hk
      rw [if_neg hrel]
      refine ih (h.callSetState fun t a ha hs => ?_) (by show _ = m.callCount; omega)
        fun k hk hlt hmode' hrel' => ?_
      · have hr := (h.pending t a ha).2.2.2
        rw [hs] at hr
        rw [hring _ hr]
        exact hr
      · have hne : k ≠ nn := by omega
        simp only [Telephony.callSetState, modify_of_ne hne] at hmode' hrel'
        exact hbehind k (by omega) hlt hmode' hrel'
    · rw [if_pos (by simpa using hmode)]
      exact ih h (by omega) fun k hk => hbehind k (by omega)

end Free

section Alloc

theorem exists_shared {R : Nat → Nat → Prop} (hlt : n < k) (h : ∀ x < k, ∃ i < n, R i x) :
    ∃ x y i, x ≠ y ∧ R i x ∧ R i y := by
  choose! f hf hR using h
  obtain ⟨x, hx, y, hy, hne, hxy⟩ := Finset.exists_ne_map_eq_of_card_lt_of_maps_to
    (by simpa using hlt : (Finset.range n).card < (Finset.range k).card) (f := f)
    fun x hx => Finset.mem_coe.2 (Finset.mem_range.2 (hf x (Finset.mem_range.1 hx)))
  exact ⟨x, y, f x, hne, hR x (Finset.mem_range.1 hx), hxy ▸ hR y (Finset.mem_range.1 hy)⟩

theorem Modem.allocCall_eq (hroom : m.callCount < maxCalls) : ∃ id, m.allocCall = some (m.callCount,
      { m.modify m.callCount fun c => { c with id := id, tag := m.nextTag } with
        callCount := m.callCount + 1, nextTag := m.nextTag + 1 }) ∧
      ∀ i, i < m.callCount → (m.calls i).id ≠ id := by
  unfold allocCall
  simp only [if_pos hroom]
  refine ⟨_, rfl, ?_⟩
  intro i hi he
  cases hfind : (List.range m.callCount).find? fun (id : Nat) => !(List.range m.callCount).any fun nn =>
      (m.calls nn).id == (id + 1 : Int) with
  | some id =>
    have hnot := List.find?_some hfind
    simp only [Bool.not_eq_true', any_eq_false, mem_range, beq_iff_eq] at hnot
    rw [hfind] at he
    exact hnot i hi he
  | none =>
    rw [hfind] at he
    -- the ids up to `call_count + 1` are too many for the live calls
    have hall : ∀ id < m.callCount + 1, ∃ nn < m.callCount, (m.calls nn).id = (id + 1 : Int) := by
      intro id hid
      rcases Nat.lt_or_eq_of_le (Nat.le_of_lt_succ hid) with hlt | rfl
      · have := List.find?_eq_none.1 hfind id (mem_range.2 hlt)
        simpa using this
      · exact ⟨i, hi, he⟩
    obtain ⟨x, y, nn, hne, hx, hy⟩ := exists_shared (Nat.lt_succ_self _) hall
    omega

/-- One more value, different from the first `n`, which are different from each other. -/
theorem distinct_succ {β : Type} {f g : Nat → β} (hold : ∀ k, k < n → g k = f k)
    (hf : ∀ i j, i < n → j < n → f i = f j → i = j) (hnew : ∀ i, i < n → f i ≠ g n) :
    ∀ i j, i < n + 1 → j < n + 1 → g i = g j → i = j := by
  intro i j hi hj he
  rcases Nat.lt_succ_iff_lt_or_eq.1 hi with hi | rfl <;> rcases Nat.lt_succ_iff_lt_or_eq.1 hj with hj | rfl
  · rw [hold i hi, hold j hj] at he
    exact hf i j hi hj he
  · rw [hold i hi] at he
    exact absurd he (hnew i hi)
  · rw [hold j hj] at he
    exact absurd he.symm (hnew j hj)
  · rfl

section
variable (h : Sound m)
include h

theorem Sound.add (hroom : m.callCount < maxCalls) (hcount : m'.callCount = m.callCount + 1)
    (hold : ∀ k, k < m.callCount → m'.calls k = m.calls k)
    (hid : ∀ i, i < m.callCount → (m.calls i).id ≠ (m'.calls m.callCount).id)
    (htag : (m'.calls m.callCount).tag = m.nextTag) (hnext : m'.nextTag = m.nextTag + 1)
    (hfree : m.freeTimers = (m'.calls m.callCount).timer.toList ++ m'.freeTimers) (howner : ∀ t, m'.owner t =
      if (m'.calls m.callCount).timer = some t then m.nextTag else m.owner t)
    (harmed : ∀ t a, m'.armed t = some a → m.armed t = some a ∨
      ((m'.calls m.callCount).timer = some t ∧ a = ⟨m.callCount, m.nextTag⟩ ∧
        (m'.calls m.callCount).state.Rings)) : Sound m' := by
  have hlive : ∀ k, k < m'.callCount → k < m.callCount ∨ k = m.callCount := fun k hk => by
    rw [hcount] at hk
    omega
  have hnew : ∀ t, (m'.calls m.callCount).timer = some t → t ∈ m.freeTimers ∧ t ∉ m'.freeTimers := by
    intro t ht
    have hnd := h.nodup
    rw [hfree, ht] at hnd ⊢
    exact ⟨by simp, (nodup_cons.1 hnd).1⟩
  have hsub : ∀ t, t ∈ m'.freeTimers → t ∈ m.freeTimers := fun t ht => by
    rw [hfree]
    exact mem_append_right _ ht
  -- the timer of the new call is not that of an old one
  have hapart : ∀ i t, i < m.callCount → (m.calls i).timer = some t →
      (m'.calls m.callCount).timer ≠ some t := fun i t hi ht he => (h.owned i t hi ht).1 (hnew t he).1
  constructor
  · rw [hcount]
    exact hroom
  · rw [hcount]
    exact distinct_succ (fun k hk => congrArg (·.id) (hold k hk)) h.ids hid
  · rw [hcount]
    refine distinct_succ (fun k hk => congrArg (·.tag) (hold k hk)) h.tags fun i hi => ?_
    rw [htag]
    exact (h.recent i hi).ne
  · intro i hi
    rw [hnext]
    rcases hlive i hi with hi | rfl
    · rw [hold i hi]
      exact (h.recent i hi).trans (Nat.lt_succ_self _)
    · rw [htag]
      exact Nat.lt_succ_self _
  · intro t a ha
    rw [hcount]
    rcases harmed t a ha with ha | ⟨ht, rfl, hr⟩
    · obtain ⟨hslot, htimer, htag', hr⟩ := h.pending t a ha
      rw [hold _ hslot]
      exact ⟨hslot.trans (Nat.lt_succ_self _), htimer, htag', hr⟩
    · exact ⟨Nat.lt_succ_self _, ht, htag, hr⟩
  · intro i j t hi hj hti htj
    rcases hlive i hi with hi | rfl <;> rcases hlive j hj with hj | rfl
    · rw [hold i hi] at hti
      rw [hold j hj] at htj
      exact h.timers i j t hi hj hti htj
    · rw [hold i hi] at hti
      exact absurd htj (hapart i t hi hti)
    · rw [hold j hj] at htj
      exact absurd hti (hapart j t hj htj)
    · rfl
  · intro i t hi ht
    rw [howner]
    rcases hlive i hi with hi | rfl
    · rw [hold i hi] at ht ⊢
      rw [if_neg (hapart i t hi ht)]
      exact ⟨fun hm => (h.owned i t hi ht).1 (hsub t hm), (h.owned i t hi ht).2⟩
    · rw [if_pos ht, htag]
      exact ⟨(hnew t ht).2, rfl⟩
  · have hnd := h.nodup
    rw [hfree] at hnd
    exact (nodup_append.1 hnd).2.1
  · intro t ht
    rcases h.pool t ht with hf | ⟨i, hi, hti⟩
    · rw [hfree] at hf
      rcases mem_append.1 hf with hf | hf
      · exact .inr ⟨m.callCount, by omega, by simpa using hf⟩
      · exact .inl hf
    · exact .inr ⟨i, by omega, by rw [hold i hi, hti]⟩

theorem Sound.exists_free (hroom : m.callCount < maxCalls) : ∃ t rest, m.freeTimers = t :: rest := by
  cases hf : m.freeTimers with
  | cons t rest => exact ⟨t, rest, rfl⟩
  | nil =>
    have hall : ∀ t < maxTimers, ∃ i < m.callCount, (m.calls i).timer = some t := by
      intro t ht
      rcases h.pool t ht with hm | hlive
      · rw [hf] at hm
        cases hm
      · exact hlive
    obtain ⟨x, y, i, hne, hx, hy⟩ := exists_shared (hroom.trans (by decide)) hall
    exact absurd (Option.some.inj (hx.symm.trans hy)) hne

theorem Sound.addInboundCall {number : List Char}
    (hslot : m.callCount < maxCalls → (m.calls m.callCount).timer = none) :
    Sound (addInboundCall isRemoteNumber m number) := by
  unfold Telephony.addInboundCall
  by_cases hroom : m.callCount < maxCalls
  · obtain ⟨id, ha, hid⟩ := allocCall_eq hroom
    rw [ha]
    refine h.add hroom rfl (fun k hk => ?_) ?_ ?_ rfl ?_ ?_ ?_
    · have hne : k ≠ m.callCount := hk.ne
      simp [Modem.modify, update_of_ne hne]
    · simpa using hid
    · simp
    · simp [hslot hroom]
    · simp [hslot hroom]
    · exact fun t a ha => .inl ha
  · simp only [allocCall, if_neg hroom]
    exact h

theorem Sound.handleDial (cmd : List Char) : ∃ m', handleDial isRemoteNumber m cmd = .ok m' ∧ Sound m' := by
  unfold Telephony.handleDial
  by_cases hroom : m.callCount < maxCalls
  · obtain ⟨id, ha, hid⟩ := allocCall_eq hroom
    obtain ⟨t, rest, hfree⟩ := h.exists_free hroom
    rw [ha]
    simp only [sysTimerCreate, modify_freeTimers, hfree]
    refine ⟨_, rfl, h.add hroom rfl (fun k hk => ?_) ?_ ?_ rfl ?_ ?_ ?_⟩
    · have hne : k ≠ m.callCount := hk.ne
      simp [Modem.sysTimerSet, Modem.modify, update_of_ne hne]
    · simpa [Modem.sysTimerSet, Modem.modify] using hid
    · simp [Modem.sysTimerSet, Modem.modify]
    · simp [Modem.sysTimerSet, Modem.modify, hfree]
    · intro u
      by_cases hu : u = t
      · subst hu
        simp [Modem.sysTimerSet, Modem.modify]
      · simp [Modem.sysTimerSet, Modem.modify, update_of_ne hu, Ne.symm hu]
    · intro u a hu
      by_cases hut : u = t
      · subst hut
        simp only [Modem.sysTimerSet, Modem.modify, update_self, Option.some.injEq] at hu
        exact .inr ⟨by simp [Modem.sysTimerSet, Modem.modify], hu.symm,
          .inl (by simp [Modem.sysTimerSet, Modem.modify])⟩
      · simp only [Modem.sysTimerSet, Modem.modify, update_of_ne hut] at hu
        exact .inl hu
  · simp only [allocCall, if_neg hroom]
    exact ⟨m, rfl, h⟩

end

end Alloc

section Fire
variable {t : TimerId} {a : Armed} {dialled : Bool}

theorem armed_of_disarm {u : TimerId} (hu : update m.armed t none u = some a) : u ≠ t ∧ m.armed u = some a := by
  by_cases hut : u = t
  · subst hut
    simp at hu
  · exact ⟨hut, by rwa [update_of_ne hut] at hu⟩

theorem Sound.disarm (h : Sound m) (t : TimerId) : Sound { m with armed := update m.armed t none } :=
  h.congr rfl (fun _ _ => ⟨rfl, rfl, rfl⟩) rfl rfl rfl (fun _ _ hu => (armed_of_disarm hu).2)
    fun u a hu => (h.pending u a (armed_of_disarm hu).2).2.2.2

theorem Sound.sysTimerSet (h : Sound m) (hslot : slot < m.callCount)
    (ht : (m.calls slot).timer = some t) (hr : (m.calls slot).state.Rings) : Sound (m.sysTimerSet t slot) := by
  refine { h with pending := fun u a hu => ?_ }
  by_cases hut : u = t
  · subst hut
    simp only [sysTimerSet, update_self, Option.some.injEq] at hu
    subst hu
    exact ⟨hslot, ht, rfl, hr⟩
  · simp only [Modem.sysTimerSet, update_of_ne hut] at hu
    exact h.pending u a hu

theorem Sound.fire (h : Sound m) (ha : m.armed t = some a)
    (hbehind : (m.calls a.slot).state = .dialing → (m.calls a.slot).isRemote = true →
      dialled = false → ∀ u b, m.armed u = some b → b.slot ≤ a.slot) : ∃ m', fire m t dialled = .ok m' ∧ Sound m' ∧
      ∀ k, k < m'.callCount → (m'.calls k).tag ≠ a.tag → ∃ j, j < m.callCount ∧ m'.calls k = m.calls j := by
  obtain ⟨hslot, htimer, htag, hr⟩ := h.pending t a ha
  have h0 := h.disarm t
  generalize hm0 : ({ m with armed := update m.armed t none } : Modem) = m0 at h0
  have hcalls : m0.calls = m.calls := by rw [← hm0]
  have hcount : m0.callCount = m.callCount := by rw [← hm0]
  have harmed : m0.armed = update m.armed t none := by rw [← hm0]
  have hfire : Telephony.fire m t dialled = voiceCallEvent m0 a.slot dialled := by
    simp [Telephony.fire, ha, hm0]
  -- changing the state of the call changes no other
  have hlocal : ∀ state k, k < m.callCount → ((Telephony.callSetState m0 a.slot state).calls k).tag ≠ a.tag →
      ∃ j, j < m.callCount ∧ (Telephony.callSetState m0 a.slot state).calls k = m.calls j := by
    intro state k hk hne
    by_cases hks : k = a.slot
    · subst hks
      simp [Telephony.callSetState, hcalls, htag] at hne
    · exact ⟨k, hk, by simp [Telephony.callSetState, modify_of_ne hks, hcalls]⟩
  rw [hfire]
  unfold voiceCallEvent
  rw [hcalls]
  rcases hr with hd | hd
  · simp only [hd]
    have h1 : Sound (Telephony.callSetState m0 a.slot .alerting) := h0.callSetState fun _ _ _ _ => .inr rfl
    cases hrem : (m.calls a.slot).isRemote with
    | true =>
      cases hdial : dialled with
      | true => exact ⟨_, rfl, h1, fun k hk => hlocal .alerting k (hcount ▸ hk)⟩
      | false =>
        have hslot1 : a.slot < (Telephony.callSetState m0 a.slot .alerting).callCount := hcount ▸ hslot
        obtain ⟨m', hm', hf, h'⟩ := h1.freeCall hslot1 fun u b hu => by
          apply hbehind hd hrem hdial u b
          simp only [Telephony.callSetState, modify_armed, harmed] at hu
          exact (armed_of_disarm hu).2
        refine ⟨m', hm', h', fun k hk _ => ⟨slotBefore a.slot k, ?_, ?_⟩⟩
        · rw [hf.count] at hk
          have hlt : slotBefore a.slot k < m0.callCount := slotBefore_lt hk
          rwa [← hcount]
        · rw [hf.count] at hk
          rw [hf.calls k hk, Telephony.callSetState, modify_of_ne (slotBefore_ne k), hcalls]
    | false =>
      simp only [htimer]
      refine ⟨_, rfl, h1.sysTimerSet (hcount ▸ hslot) ?_ ?_, fun k hk => hlocal .alerting k (hcount ▸ hk)⟩
      · simp [Telephony.callSetState, hcalls, htimer]
      · exact .inr (by simp [Telephony.callSetState])
  · simp only [hd]
    refine ⟨Telephony.callSetState m0 a.slot .active, rfl, h0.callSetState fun u b hu hb => ?_,
      fun k hk => hlocal .active k (hcount ▸ hk)⟩
    -- no other timer is pending for this call
    obtain ⟨hut, hu⟩ := armed_of_disarm (harmed ▸ hu)
    have hu' := (h.pending u b hu).2.1
    rw [hb, htimer] at hu'
    exact absurd (Option.some.inj hu').symm hut

end Fire

def Op.Frees (m : Modem) : Op → Nat → Prop
  | .answer cmd, k => cmd.head? = some 'H' ∧
      ((List.range m.callCount).find? fun nn => (m.calls nn).state == .incoming) = some k
  | .hangup ('0' :: _), k =>
      k < m.callCount ∧ (m.calls k).mode = .voice ∧ releasedHeld (m.calls k) = true
  | .hangup ['1'], k =>
      k < m.callCount ∧ (m.calls k).mode = .voice ∧ releasedActive (m.calls k) = true
  | .hangup ('1' :: c :: _), k => m.findCall ((c.toNat : Int) - 48) = some k
  | .disconnect number, k => m.findCallByNumber number = some k
  | .fire t dialled, k => ∃ a, m.armed t = some a ∧ a.slot = k ∧ (m.calls k).state = .dialing ∧
      (m.calls k).isRemote = true ∧ dialled = false
  | _, _ => False

/-- The step leaves pending timers their calls. No call with a pending timer lies behind one
that is freed, an inbound call does not get a slot with a timer left in it, and a call with
a pending timer is not given another state than dialing or alerting. -/
structure Op.Calm (m : Modem) (op : Op) : Prop where
  frees : ∀ k, op.Frees m k → ∀ t a, m.armed t = some a → a.slot ≤ k
  inbound : ∀ number, op = .addInbound number → m.callCount < maxCalls → (m.calls m.callCount).timer = none
  update : ∀ number state, op = .update number state → ∀ k, m.findCallByNumber number = some k →
    ∀ t a, m.armed t = some a → a.slot = k → state.Rings

section Steps
variable {op : Op}

theorem find_range {p : Nat → Bool} (h : (List.range n).find? p = some k) : k < n :=
  mem_range.1 (mem_of_find?_eq_some h)

theorem Sound.freeFound (h : Sound m) {o : Option Nat} (hlt : ∀ k, o = some k → k < m.callCount)
    (hbehind : ∀ k, o = some k → ∀ t a, m.armed t = some a → a.slot ≤ k) :
    ∃ m', (match o with | some nn => m.freeCall nn | none => .ok m) = .ok m' ∧ Sound m' := by
  cases o with
  | none => exact ⟨m, rfl, h⟩
  | some nn =>
    obtain ⟨m', hm, -, h'⟩ := h.freeCall (hlt nn rfl) (hbehind nn rfl)
    exact ⟨m', hm, h'⟩

theorem Sound.handleAnswer (h : Sound m) (hc : (Op.answer cmd).Calm m) :
    ∃ m', handleAnswer m cmd = .ok m' ∧ Sound m' := by
  unfold Telephony.handleAnswer
  split
  · refine ⟨_, rfl, h.mapStates fun c hr => ?_⟩
    rcases hr with hr | hr <;> simp [hr]
  · rename_i hcmd
    exact h.freeFound (fun _ => find_range) fun nn hfind => hc.frees nn ⟨hcmd, hfind⟩
  · exact ⟨m, rfl, h⟩

theorem Sound.handleHangup (h : Sound m) (hc : (Op.hangup cmd).Calm m) :
    ∃ m', handleHangup m cmd = .ok m' ∧ Sound m' := by
  unfold Telephony.handleHangup
  split
  · exact h.releaseLoop (fun _ _ => rfl) (zero_add _) fun k _ hk hv hr =>
      hc.frees k ⟨hk, hv, hr⟩
  · refine h.releaseLoop (fun c hr => ?_) (zero_add _) fun k _ hk hv hr =>
      hc.frees k ⟨hk, hv, hr⟩
    rcases hr with hr | hr <;> simp [acceptHeld, hr]
  · exact h.freeFound (fun _ => find_range) hc.frees
  · refine ⟨_, rfl, h.mapStates fun c hr => ?_⟩
    rcases hr with hr | hr <;> simp [acceptHeld, hr]
  · refine ⟨_, rfl, h.mapStates fun c hr => ?_⟩
    rcases hr with hr | hr <;> simp [hr]
  · exact ⟨_, rfl, h.acceptFirstHeld⟩
  · exact ⟨_, rfl, h.acceptFirstHeld⟩
  · exact ⟨m, rfl, h⟩

theorem Sound.step (h : Sound m) (hc : op.Calm m) : ∃ m', step isRemoteNumber m op = .ok m' ∧ Sound m' := by
  cases op with
  | dial cmd => exact h.handleDial cmd
  | answer cmd => exact h.handleAnswer hc
  | hangup cmd => exact h.handleHangup hc
  | addInbound number => exact ⟨_, rfl, h.addInboundCall (hc.inbound number rfl)⟩
  | update number state =>
    refine ⟨_, rfl, ?_⟩
    unfold updateCall
    split
    · exact h
    · rename_i k hfind
      exact h.callSetState fun t a ha hs => hc.update number state rfl k hfind t a ha hs
  | disconnect number =>
    rw [Telephony.step, disconnectCall]
    have hfree := h.freeFound (o := m.findCallByNumber number) (fun _ => find_range) hc.frees
    split at hfree <;> simp_all
  | fire t dialled =>
    cases ha : m.armed t with
    | none => exact ⟨m, by simp [Telephony.step, Telephony.fire, ha], h⟩
    | some a =>
      obtain ⟨m', hm, h', -⟩ := h.fire ha fun hd hr hf =>
        hc.frees a.slot ⟨a, ha, rfl, hd, hr, hf⟩
      exact ⟨m', hm, h'⟩

end Steps

/-- Calls and timers as the modem needs them: distinct ids; every pending timer belongs to
exactly one live call, the one it was armed for, and its firing changes no other; and no
step from here fails, be it an assertion or a timer destroyed twice or for another call. -/
structure Faultless (isRemoteNumber : List Char → Bool) (m : Modem) : Prop where
  ids : ∀ i j, i < m.callCount → j < m.callCount → (m.calls i).id = (m.calls j).id → i = j
  pending : ∀ t a, m.armed t = some a → ∃! k, k < m.callCount ∧ (m.calls k).timer = some t
  armedFor : ∀ t a, m.armed t = some a → a.slot < m.callCount ∧
    (m.calls a.slot).timer = some t ∧ (m.calls a.slot).tag = a.tag
  firing : ∀ t a dialled m', m.armed t = some a → (Op.fire t dialled).Calm m →
    step isRemoteNumber m (.fire t dialled) = .ok m' →
    ∀ k, k < m'.callCount → (m'.calls k).tag ≠ a.tag → ∃ j, j < m.callCount ∧ m'.calls k = m.calls j
  steps : ∀ op : Op, op.Calm m → ∃ m', step isRemoteNumber m op = .ok m'

theorem Sound.faultless (h : Sound m) : Faultless isRemoteNumber m := by
  constructor
  · exact h.ids
  · intro t a ha
    obtain ⟨hslot, htimer, -⟩ := h.pending t a ha
    exact ⟨a.slot, ⟨hslot, htimer⟩, fun k hk => h.timers k a.slot t hk.1 hslot hk.2 htimer⟩
  · intro t a ha
    obtain ⟨hslot, htimer, htag, -⟩ := h.pending t a ha
    exact ⟨hslot, htimer, htag⟩
  · intro t a dialled m' ha hc hm
    obtain ⟨m1, hm1, -, hlocal⟩ := @Sound.fire m t a dialled h ha fun hd hr hf =>
      hc.frees a.slot ⟨a, ha, rfl, hd, hr, hf⟩
    obtain rfl : m1 = m' := Except.ok.inj (hm1.symm.trans hm)
    exact hlocal
  · intro op hc
    obtain ⟨m', hm, -⟩ : ∃ m', Telephony.step isRemoteNumber m op = .ok m' ∧ Sound m' := h.step hc
    exact ⟨m', hm⟩

/-- **In every run of calm steps the calls and their timers are right.** -/
theorem faultless_of_reach (isRemoteNumber : List Char → Bool) {m : Modem}
    (h : Lib.Reach (· = freshModem) (fun m (op : Op) m' => op.Calm m ∧ step isRemoteNumber m op = .ok m') m) :
    Faultless isRemoteNumber m := by
  refine (h.invariant (I := Sound) ?_ ?_).faultless
  · rintro _ rfl
    exact sound_fresh
  · rintro m op m' hI ⟨hc, hm⟩
    obtain ⟨m1, hm1, h1⟩ : ∃ m1, step isRemoteNumber m op = .ok m1 ∧ Sound m1 := hI.step hc
    obtain rfl : m1 = m' := Except.ok.inj (hm1.symm.trans hm)
    exact h1

def ringing : List Op := [.dial ['1'], .fire 0 true, .addInbound ['2']]

theorem ringing_faultless : ∃ m, ringing.foldlM (step fun _ => false) freshModem = .ok m ∧ m.callCount = 2 ∧
      Faultless (fun _ => false) m := by
  refine ⟨_, rfl, rfl, faultless_of_reach _ ?_⟩
  refine .step (a := .addInbound ['2']) (.step (a := .fire 0 true) (.step (a := .dial ['1'])
    (.start rfl) ⟨⟨?_, ?_, ?_⟩, rfl⟩) ⟨⟨?_, ?_, ?_⟩, rfl⟩) ⟨⟨?_, ?_, ?_⟩, rfl⟩
  · rintro k ⟨⟩
  · rintro number ⟨⟩
  · rintro number state ⟨⟩
  · rintro k ⟨a, -, -, -, -, h⟩
    cases h
  · rintro number ⟨⟩
  · rintro number state ⟨⟩
  · rintro k ⟨⟩
  · rintro number - -
    rfl
  · rintro number state ⟨⟩

def displaced : List Op := [.dial ['1'], .dial ['2'], .hangup ['1', '1'], .addInbound ['3']]

/-- The second call has moved to the first slot, but its timer still points to the second
one, where the third call is now: when it fires, `voice_call_event` finds an incoming call.
The third call has inherited the pointer to the timer, and frees it when it is disconnected. -/
theorem displaced_faulty :
    ∃ m, Lib.Reach (· = freshModem) (fun m (op : Op) m' => step (fun _ => false) m op = .ok m') m ∧
      displaced.foldlM (step fun _ => false) freshModem = .ok m ∧
      (∃ a, m.armed 1 = some a ∧ (m.calls a.slot).tag ≠ a.tag) ∧
      step (fun _ => false) m (.fire 1 true) = .error .unreachableState ∧
      step (fun _ => false) m (.disconnect ['3']) = .error .destroyedForAnother := by
  refine ⟨_, .step (a := .addInbound ['3']) (.step (a := .hangup ['1', '1'])
    (.step (a := .dial ['2']) (.step (a := .dial ['1']) (.start rfl) rfl) rfl) rfl) rfl, rfl,
    ⟨_, rfl, ?_⟩, rfl, rfl⟩
  decide

end GemDroid.Telephony
