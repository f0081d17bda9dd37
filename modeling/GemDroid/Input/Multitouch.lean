import GemDroid.Lib.Reach
import Mathlib.Data.Finset.Card
import Mathlib.Data.Fintype.Basic

/-! The multi-touch screen (`android/multitouch-screen.c`).

Pointers are tracked in ten slots, and every change is pushed to the guest under the slot
protocol: an event selects a slot, and those after it are about that slot. The selection
is left out where the slot is selected already. A free slot has the tracking id -1, and
pointers are looked up by their tracking id. -/
namespace GemDroid.Input.Multitouch
open Lib Function Finset List Option

/-! ### The model -/

def mtsPointersNum : Nat := 10
def mtsPointerUp : Int := -1
def mtsPointerMouse : Int := -2

variable {slot : Fin mtsPointersNum}

/-- The codes of the events; those of `EV_ABS` and `SYN_REPORT`. -/
inductive Code where
  | absMtSlot
  | absMtTouchMajor
  | absMtPositionX
  | absMtPositionY
  | absMtTrackingId
  | absMtPressure
  | synReport
deriving DecidableEq, Repr

abbrev Event := Code × Int

structure MTSPointerState where
  trackingId : Int
  x : Int
  y : Int
  pressure : Int
deriving DecidableEq, Repr

/-- The screen and the events it has pushed. -/
structure MTSState where
  trackedPtrNum : Int
  currentSlot : Int
  touchMajor : Int
  trackedPointers : Fin mtsPointersNum → MTSPointerState
  pushed : List Event

variable {s : MTSState}

inductive MTESource where
  | mouse
  | device
deriving DecidableEq, Repr

def getPointerIndex (s : MTSState) (trackingId : Int) : Option (Fin mtsPointersNum) :=
  (finRange mtsPointersNum).find? fun i => (s.trackedPointers i).trackingId = trackingId

def getAvailablePointerIndex (s : MTSState) : Option (Fin mtsPointersNum) := getPointerIndex s mtsPointerUp

def selectEvents (s : MTSState) (slot : Fin mtsPointersNum) : List Event :=
  if (slot : Int) ≠ s.currentSlot then [(.absMtSlot, slot)] else []

def downEvents (slot touchMajor pressure x y : Int) : List Event :=
  [(.absMtTrackingId, slot), (.absMtTouchMajor, touchMajor), (.absMtPressure, pressure),
   (.absMtPositionX, x), (.absMtPositionY, y), (.synReport, 0)]

def pointerDown (s : MTSState) (trackingId x y pressure : Int) : MTSState :=
  match getAvailablePointerIndex s with
  | none => s
  | some slot =>
    { trackedPtrNum := s.trackedPtrNum + 1
      currentSlot := slot
      touchMajor := s.touchMajor + 1
      trackedPointers := update s.trackedPointers slot ⟨trackingId, x, y, pressure⟩
      pushed := s.pushed ++ selectEvents s slot ++ downEvents slot (s.touchMajor + 1) pressure x y }

def pointerUp (s : MTSState) (slot : Fin mtsPointersNum) : Option MTSState :=
  if s.trackedPtrNum - 1 ≥ 0 then
    some
      { trackedPtrNum := s.trackedPtrNum - 1
        currentSlot := -1
        touchMajor := s.touchMajor
        trackedPointers := update s.trackedPointers slot ⟨mtsPointerUp, 0, 0, 0⟩
        pushed := s.pushed ++ selectEvents s slot ++ [(.absMtTrackingId, -1), (.synReport, 0)] }
  else none

/-- The events of `_mts_pointer_move` between the selection and the report. -/
def moveEvents (ptr : MTSPointerState) (x y pressure : Int) : List Event :=
  (if ptr.pressure ≠ pressure ∧ pressure ≠ 0 then [(.absMtPressure, pressure)] else []) ++
    (if ptr.x ≠ x then [(.absMtPositionX, x)] else []) ++ (if ptr.y ≠ y then [(.absMtPositionY, y)] else [])

def pointerMove (s : MTSState) (slot : Fin mtsPointersNum) (x y pressure : Int) : MTSState :=
  let ptr := s.trackedPointers slot
  if ptr.x = x ∧ ptr.y = y then s
  else
    { s with
      currentSlot := slot
      trackedPointers := update s.trackedPointers slot
        { ptr with
          pressure := if ptr.pressure ≠ pressure ∧ pressure ≠ 0 then pressure else ptr.pressure
          x := x
          y := y }
      pushed := s.pushed ++ selectEvents s slot ++ moveEvents ptr x y pressure ++ [(.synReport, 0)] }

/-- The id a pointer is tracked under: that of the mouse is fixed. -/
def effectiveId (source : MTESource) (trackingId : Int) : Int :=
  if source = .mouse then mtsPointerMouse else trackingId

def updatePointer (s : MTSState) (source : MTESource) (trackingId x y pressure : Int) : Option MTSState :=
  let trackingId := effectiveId source trackingId
  match getPointerIndex s trackingId with
  | none => if pressure = 0 then some s else some (pointerDown s trackingId x y pressure)
  | some slot => if pressure = 0 then pointerUp s slot else some (pointerMove s slot x y pressure)

def initial : MTSState := ⟨0, -1, 0, fun _ => ⟨mtsPointerUp, 0, 0, 0⟩, []⟩

/-! ### The guest's side of the protocol -/

structure Slot where
  occupied : Bool
  x : Int
  y : Int
deriving DecidableEq, Repr

structure Guest where
  selected : Int
  slots : Int → Slot

variable {g : Guest}

open Guest

def Guest.atSelected (g : Guest) (f : Slot → Slot) : Guest :=
  { g with slots := update g.slots g.selected (f (g.slots g.selected)) }

def Guest.receive (g : Guest) : Event → Guest
  | (.absMtSlot, slot) => { g with selected := slot }
  | (.absMtTrackingId, id) => g.atSelected fun slot => { slot with occupied := decide (id ≠ -1) }
  | (.absMtPositionX, x) => g.atSelected fun slot => { slot with x := x }
  | (.absMtPositionY, y) => g.atSelected fun slot => { slot with y := y }
  | _ => g

def Guest.replay (g : Guest) (events : List Event) : Guest := events.foldl Guest.receive g

def Guest.fresh (selected : Int) : Guest := ⟨selected, fun _ => ⟨false, 0, 0⟩⟩

@[simp] theorem Guest.replay_cons (g : Guest) (e : Event) (rest : List Event) :
    g.replay (e :: rest) = (g.receive e).replay rest := rfl

@[simp] theorem Guest.replay_append (g : Guest) (a b : List Event) :
    g.replay (a ++ b) = (g.replay a).replay b := foldl_append

@[simp] theorem Guest.replay_nil (g : Guest) : g.replay [] = g := rfl

/-! ### What holds in a run -/

def tracked (ptrs : Fin mtsPointersNum → MTSPointerState) : Finset (Fin mtsPointersNum) :=
  Finset.univ.filter fun i => (ptrs i).trackingId ≠ mtsPointerUp

/-- The guest knows of a slot what the screen does. -/
def Agree (ptr : MTSPointerState) (slot : Slot) : Prop :=
  (slot.occupied = true ↔ ptr.trackingId ≠ mtsPointerUp) ∧
    (ptr.trackingId ≠ mtsPointerUp → slot.x = ptr.x ∧ slot.y = ptr.y)

structure Right (g : Guest) (s : MTSState) : Prop where
  count : s.trackedPtrNum = (tracked s.trackedPointers).card
  distinct : ∀ i j, (s.trackedPointers i).trackingId = (s.trackedPointers j).trackingId →
    (s.trackedPointers i).trackingId ≠ mtsPointerUp → i = j
  slots : ∀ i : Fin mtsPointersNum, Agree (s.trackedPointers i) ((g.replay s.pushed).slots i)

def Selected (g : Guest) (s : MTSState) : Prop :=
  s.currentSlot = -1 ∨ (g.replay s.pushed).selected = s.currentSlot

structure Call where
  source : MTESource
  trackingId : Int
  x : Int
  y : Int
  pressure : Int

/-- The id that marks a free slot is not released while there is one. -/
def Meets (s : MTSState) (c : Call) : Prop :=
  effectiveId c.source c.trackingId = mtsPointerUp → c.pressure = 0 →
    ∀ i, (s.trackedPointers i).trackingId ≠ mtsPointerUp

def Calls (s : MTSState) (c : Call) (s' : MTSState) : Prop :=
  updatePointer s c.source c.trackingId c.x c.y c.pressure = some s'

/-! ### Looking up -/

variable {ptrs : Fin mtsPointersNum → MTSPointerState} {ptr : MTSPointerState}

variable {trackingId : Int}

theorem getPointerIndex_some {i : Fin mtsPointersNum}
    (h : getPointerIndex s trackingId = some i) : (s.trackedPointers i).trackingId = trackingId := by
  simpa using find?_some h

theorem getPointerIndex_none (h : getPointerIndex s trackingId = none)
    (i : Fin mtsPointersNum) : (s.trackedPointers i).trackingId ≠ trackingId := by
  have := find?_eq_none.mp h i (mem_finRange i)
  simpa using this

/-! ### Replaying one call -/

theorem replay_select (h : Selected g s) (slot : Fin mtsPointersNum) :
    (g.replay s.pushed).replay (selectEvents s slot) = { g.replay s.pushed with selected := slot } := by
  rw [selectEvents]
  split
  · rfl
  rename_i hsame
  have hcurrent : (slot : Int) = s.currentSlot := not_not.mp hsame
  have hselected : (g.replay s.pushed).selected = slot := by
    obtain hnone | hselected := h
    · omega
    · rw [hselected, hcurrent]
  rw [replay_nil, ← hselected]

def Guest.changed (g : Guest) (slot : Fin mtsPointersNum) (f : Slot → Slot) : Guest :=
  { g with selected := slot, slots := update g.slots slot (f (g.slots slot)) }

theorem replay_down (touchMajor x y pressure : Int) :
    { g with selected := slot }.replay (downEvents slot touchMajor pressure x y) =
      g.changed slot fun _ => ⟨true, x, y⟩ := by
  simp [downEvents, receive, atSelected, changed]

theorem replay_up : { g with selected := slot }.replay [(.absMtTrackingId, -1), (.synReport, 0)] =
      g.changed slot fun old => { old with occupied := false } := rfl

theorem replay_move (g : Guest) (slot : Fin mtsPointersNum) (ptr : MTSPointerState) (x y pressure : Int) :
    ({ g with selected := slot }.replay (moveEvents ptr x y pressure)).replay [(.synReport, 0)] =
      g.changed slot fun old =>
        { old with x := if ptr.x ≠ x then x else old.x, y := if ptr.y ≠ y then y else old.y } := by
  rw [moveEvents]
  split_ifs <;> simp [receive, atSelected, changed]

theorem Guest.changed_slots (g : Guest) (slot i : Fin mtsPointersNum) (f : Slot → Slot) :
    (g.changed slot f).slots i = if i = slot then f (g.slots slot) else g.slots i := by
  simp only [changed, update_apply]
  by_cases hi : i = slot
  · subst hi
    simp
  have hne : ¬ (i : Int) = slot := by
    intro heq
    apply hi
    ext
    omega
  rw [if_neg hne, if_neg hi]

theorem agree_changed {f : Slot → Slot} (h : ∀ i : Fin mtsPointersNum, Agree (ptrs i) (g.slots i))
    (hslot : Agree ptr (f (g.slots slot))) (i : Fin mtsPointersNum) :
    Agree (update ptrs slot ptr i) ((g.changed slot f).slots i) := by
  rw [changed_slots, update_apply]
  split
  · exact hslot
  · exact h i

/-! ### Counting -/

theorem tracked_occupy (hfree : (ptrs slot).trackingId = mtsPointerUp) (hptr : ptr.trackingId ≠ mtsPointerUp) :
    (tracked (update ptrs slot ptr)).card = (tracked ptrs).card + 1 := by
  have hset : tracked (update ptrs slot ptr) = insert slot (tracked ptrs) := by
    ext i
    rw [tracked, tracked, mem_insert, mem_filter_univ, mem_filter_univ, update_apply]
    by_cases hi : i = slot
    · simp [hi, hptr]
    · simp [hi]
  rw [hset, card_insert_of_notMem (by simp [tracked, hfree])]

theorem tracked_release (ptr : MTSPointerState) (hused : (ptrs slot).trackingId ≠ mtsPointerUp) (hptr : ptr.trackingId = mtsPointerUp) :
    (tracked (update ptrs slot ptr)).card + 1 = (tracked ptrs).card := by
  have hback : (tracked (update (update ptrs slot ptr) slot (ptrs slot))).card =
      (tracked (update ptrs slot ptr)).card + 1 := tracked_occupy (by simpa using hptr) hused
  rw [update_idem, update_eq_self] at hback
  exact hback.symm

theorem tracked_same (hid : ptr.trackingId = (ptrs slot).trackingId) :
    tracked (update ptrs slot ptr) = tracked ptrs := by
  ext i
  rw [tracked, tracked, mem_filter_univ, mem_filter_univ, update_apply]
  by_cases hi : i = slot
  · simp [hi, hid]
  · simp [hi]

theorem distinct_update (h : ∀ i j, (ptrs i).trackingId = (ptrs j).trackingId → (ptrs i).trackingId ≠ mtsPointerUp → i = j)
    (hnew : ptr.trackingId ≠ mtsPointerUp → ∀ i, i ≠ slot → (ptrs i).trackingId ≠ ptr.trackingId) :
    ∀ i j, (update ptrs slot ptr i).trackingId = (update ptrs slot ptr j).trackingId →
      (update ptrs slot ptr i).trackingId ≠ mtsPointerUp → i = j := by
  intro i j heq hused
  simp only [update_apply] at heq hused
  by_cases hi : i = slot
  · by_cases hj : j = slot
    · rw [hi, hj]
    · rw [if_pos hi, if_neg hj] at heq
      rw [if_pos hi] at hused
      exact absurd heq.symm (hnew hused j hj)
  rw [if_neg hi] at heq hused
  by_cases hj : j = slot
  · rw [if_pos hj] at heq
    exact absurd heq (hnew (heq ▸ hused) i hi)
  · rw [if_neg hj] at heq
    exact h i j heq hused

/-! ### The three events -/

section Events

theorem pointerDown_right (h : Right g s) (hsel : Selected g s)
    (hnew : ∀ i, (s.trackedPointers i).trackingId ≠ trackingId) (x y pressure : Int) :
    Right g (pointerDown s trackingId x y pressure) ∧ Selected g (pointerDown s trackingId x y pressure) := by
  unfold pointerDown
  split
  · exact ⟨h, hsel⟩
  rename_i slot hslot
  have hfree := getPointerIndex_some hslot
  have hid : trackingId ≠ mtsPointerUp := fun heq => hnew slot (hfree.trans heq.symm)
  have hreplay : g.replay (s.pushed ++ selectEvents s slot ++ downEvents slot (s.touchMajor + 1) pressure x y) =
      (g.replay s.pushed).changed slot fun _ => ⟨true, x, y⟩ := by
    rw [replay_append, replay_append, replay_select hsel, replay_down]
  refine ⟨⟨?_, ?_, ?_⟩, .inr ?_⟩
  · rw [tracked_occupy hfree hid, h.count]
    push_cast
    rfl
  · exact distinct_update h.distinct fun _ i _ => hnew i
  · intro i
    rw [hreplay]
    exact agree_changed h.slots ⟨iff_of_true rfl hid, fun _ => ⟨rfl, rfl⟩⟩ i
  · rw [hreplay]
    rfl

variable {s' : MTSState} {c : Call}

/-- A pointer that is looked up has a slot that is not free, or is released as none. -/
theorem Meets.used (h : Meets s c) (hpressure : c.pressure = 0)
    (hslot : getPointerIndex s (effectiveId c.source c.trackingId) = some slot) :
    (s.trackedPointers slot).trackingId ≠ mtsPointerUp := by
  have hid := getPointerIndex_some hslot
  intro hfree
  exact h (hid.symm.trans hfree) hpressure slot hfree

section
variable (h : Right g s)
include h

theorem pointerUp_right (hsel : Selected g s)
    (hused : (s.trackedPointers slot).trackingId ≠ mtsPointerUp) (hup : pointerUp s slot = some s') :
    Right g s' ∧ Selected g s' := by
  rw [pointerUp] at hup
  split at hup
  · obtain rfl := some.inj hup
    have hreplay : g.replay (s.pushed ++ selectEvents s slot ++ [(.absMtTrackingId, -1), (.synReport, 0)]) =
        (g.replay s.pushed).changed slot fun old => { old with occupied := false } := by
      rw [replay_append, replay_append, replay_select hsel, replay_up]
    refine ⟨⟨?_, ?_, ?_⟩, .inl rfl⟩
    · have hcard := tracked_release ⟨mtsPointerUp, 0, 0, 0⟩ hused rfl
      rw [h.count, ← hcard]
      push_cast
      omega
    · exact distinct_update h.distinct fun hne => absurd rfl hne
    · intro i
      rw [hreplay]
      exact agree_changed h.slots ⟨iff_of_false Bool.false_ne_true (not_not.mpr rfl), fun hne => absurd rfl hne⟩ i
  · exact absurd hup nofun

theorem pointerUp_isSome
    (hused : (s.trackedPointers slot).trackingId ≠ mtsPointerUp) : (pointerUp s slot).isSome = true := by
  have hpos : 0 < (tracked s.trackedPointers).card := card_pos.mpr ⟨slot, by simpa [tracked] using hused⟩
  have hcount := h.count
  rw [pointerUp, if_pos (by omega)]
  rfl

theorem pointerMove_right (hsel : Selected g s) (slot : Fin mtsPointersNum) (x y pressure : Int) :
    Right g (pointerMove s slot x y pressure) ∧ Selected g (pointerMove s slot x y pressure) := by
  simp only [pointerMove]
  split
  · exact ⟨h, hsel⟩
  have hreplay := replay_move (g.replay s.pushed) slot (s.trackedPointers slot) x y pressure
  rw [← replay_select hsel, ← replay_append, ← replay_append, ← replay_append,
    ← append_assoc, ← append_assoc] at hreplay
  refine ⟨⟨?_, ?_, ?_⟩, .inr ?_⟩
  · refine h.count.trans (congrArg (fun t : Finset _ => (t.card : Int)) (tracked_same ?_).symm)
    rfl
  · apply distinct_update h.distinct
    intro hused i hi heq
    exact hi (h.distinct i slot heq (heq ▸ hused))
  · intro i
    rw [hreplay]
    apply agree_changed h.slots
    obtain ⟨hoccupied, hplace⟩ := h.slots slot
    refine ⟨hoccupied, fun hused => ?_⟩
    -- what is not sent is what the guest has
    obtain ⟨hx, hy⟩ := hplace hused
    constructor
    · by_cases hsame : (s.trackedPointers slot).x = x
      · simp [hsame, hx]
      · simp [hsame]
    · by_cases hsame : (s.trackedPointers slot).y = y
      · simp [hsame, hy]
      · simp [hsame]
  · rw [hreplay]
    rfl

theorem updatePointer_right (hsel : Selected g s) (hmeets : Meets s c)
    (hcall : Calls s c s') : Right g s' ∧ Selected g s' := by
  simp only [Calls, updatePointer] at hcall
  split at hcall
  · rename_i hnone
    split at hcall
    · obtain rfl := some.inj hcall
      exact ⟨h, hsel⟩
    · obtain rfl := some.inj hcall
      exact pointerDown_right h hsel (getPointerIndex_none hnone) c.x c.y c.pressure
  rename_i slot hslot
  split at hcall
  · rename_i hpressure
    exact pointerUp_right h hsel (hmeets.used hpressure hslot) hcall
  · obtain rfl := some.inj hcall
    exact pointerMove_right h hsel slot c.x c.y c.pressure

theorem updatePointer_isSome (hmeets : Meets s c) : ∃ s', Calls s c s' := by
  simp only [Calls, updatePointer]
  split
  · split
    · exact ⟨_, rfl⟩
    · exact ⟨_, rfl⟩
  rename_i slot hslot
  split
  · rename_i hpressure
    exact isSome_iff_exists.mp (pointerUp_isSome h (hmeets.used hpressure hslot))
  · exact ⟨_, rfl⟩

/-- The id of a free slot, released while there is one, is counted off. -/
theorem updatePointer_wrong (hmeets : ¬ Meets s c) (hcall : Calls s c s') : ¬ Right g s' := by
  simp only [Meets, not_forall, not_not] at hmeets
  obtain ⟨hid, hpressure, i, hfree⟩ := hmeets
  simp only [Calls, updatePointer, hid] at hcall
  split at hcall
  · rename_i hnone
    exact absurd hfree (getPointerIndex_none hnone i)
  rename_i slot hslot
  rw [if_pos hpressure, pointerUp] at hcall
  split at hcall
  · obtain rfl := some.inj hcall
    intro hright
    have hcount := hright.count
    simp only at hcount
    rw [tracked_same (getPointerIndex_some hslot).symm, h.count] at hcount
    omega
  · exact absurd hcall nofun

end

end Events

/-- In a run that never releases the id of a free slot while there is one, the screen
counts its pointers, tracks each once and has told the guest of them; the assertion holds
in the next call. -/
theorem touch_right (selected : Int) {s : MTSState}
    (h : Reach (· = initial) (fun s c s' => Meets s c ∧ Calls s c s') s) :
    Right (fresh selected) s ∧ ∀ c, Meets s c → ∃ s', Calls s c s' := by
  have hinv : Right (fresh selected) s ∧ Selected (fresh selected) s := by
    apply h.invariant
    · intro s hs
      rw [hs]
      refine ⟨⟨rfl, fun i j _ hne => absurd rfl hne, fun i => ?_⟩, .inl rfl⟩
      exact ⟨iff_of_false Bool.false_ne_true (not_not.mpr rfl), fun hne => absurd rfl hne⟩
    · intro s c s' ⟨hright, hsel⟩ ⟨hmeets, hcall⟩
      exact updatePointer_right hright hsel hmeets hcall
  exact ⟨hinv.1, fun c hmeets => updatePointer_isSome hinv.1 hmeets⟩

def oneFinger : MTSState := pointerDown initial 7 10 20 1

/-- Fingers with the ids from 0 on, one after the other. -/
def fingers : Nat → MTSState
  | 0 => initial
  | n + 1 => pointerDown (fingers n) n 10 20 1

theorem reach_fingers {n : Nat} (hn : n ≤ mtsPointersNum) :
    Reach (· = initial) (fun s c s' => Meets s c ∧ Calls s c s') (fingers n) := by
  induction n with
  | zero => exact .start rfl
  | succ n ih =>
    have hnew : ∀ k < mtsPointersNum, getPointerIndex (fingers k) k = none := by decide +kernel
    have hcalls : Calls (fingers n) ⟨.device, n, 10, 20, 1⟩ (fingers (n + 1)) := by
      rw [Calls, updatePointer, effectiveId, if_neg (by simp)]
      simp only [hnew n hn]
      rfl
    exact .step (ih (by omega)) ⟨fun _ hpressure => absurd hpressure one_ne_zero, hcalls⟩

/-- With all slots in use the id -1 may be released, and changes nothing; then a finger goes. -/
theorem fingers_right : ∃ s, Calls (fingers mtsPointersNum) ⟨.device, -1, 0, 0, 0⟩ (fingers mtsPointersNum) ∧
    Calls (fingers mtsPointersNum) ⟨.device, 3, 0, 0, 0⟩ s ∧ Right (fresh 0) s := by
  have hmeets : Meets (fingers mtsPointersNum) ⟨.device, -1, 0, 0, 0⟩ := fun _ _ => by decide +kernel
  have hcalls : Calls (fingers mtsPointersNum) ⟨.device, -1, 0, 0, 0⟩ (fingers mtsPointersNum) := by
    have hnone : getPointerIndex (fingers mtsPointersNum) (-1) = none := by decide +kernel
    rw [Calls, updatePointer, effectiveId, if_neg (by simp)]
    simp only [hnone]
    rfl
  have hfull := Reach.step (a := ⟨.device, -1, 0, 0, 0⟩) (reach_fingers le_rfl) ⟨hmeets, hcalls⟩
  have hup : Meets (fingers mtsPointersNum) ⟨.device, 3, 0, 0, 0⟩ := fun hid => absurd hid (by decide)
  obtain ⟨s, hs⟩ := (touch_right 0 hfull).2 _ hup
  exact ⟨s, hcalls, hs, (touch_right 0 (.step hfull ⟨hup, hs⟩)).1⟩

/-- The id -1 is released, from the start and while one finger is down: the assertion
fails, and the finger is no longer counted. -/
theorem release_free_slot : updatePointer initial .device (-1) 0 0 0 = none ∧
    ∃ s, Reach (· = initial) Calls s ∧ s.trackedPtrNum = 0 ∧ (tracked s.trackedPointers).card = 1 := by
  have hfinger : Reach (· = initial) Calls oneFinger := .step (a := ⟨.device, 7, 10, 20, 1⟩) (.start rfl) rfl
  refine ⟨by decide, (pointerUp oneFinger ⟨1, by decide⟩).get (by decide), ?_, by decide, by decide⟩
  exact .step (a := ⟨.device, -1, 0, 0, 0⟩) hfinger (by rw [Calls]; rfl)

end GemDroid.Input.Multitouch
