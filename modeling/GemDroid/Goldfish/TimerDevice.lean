import GemDroid.Lib.Reach
import Mathlib.Data.BitVec

/-! The goldfish timer (`hw/android/goldfish/timer.c`).

The guest writes the high half of an alarm and then the low half, which activates it:
the timer of the host is set, or, if the time is past already, the interrupt is raised
at once. `armed` is the device's own record of whether the timer is set. -/
namespace GemDroid.Goldfish.TimerDevice
open Lib Option

/-! ### The model -/

def timerTimeLow : Nat := 0x00
def timerTimeHigh : Nat := 0x04
def timerAlarmLow : Nat := 0x08
def timerAlarmHigh : Nat := 0x0c
def timerClearInterrupt : Nat := 0x10
def timerClearAlarm : Nat := 0x14

/-- The device, the `expire_time` of its `QEMUTimer`, the level of its interrupt and
`QEMU_CLOCK_VIRTUAL`. -/
structure TimerState where
  alarmLowNs : BitVec 32
  alarmHighNs : BitVec 32
  nowNs : BitVec 64
  armed : Int
  expireTime : Int
  irq : Bool
  clock : Int
deriving DecidableEq, Repr

namespace TimerState

def timerPending (s : TimerState) : Prop := 0 ≤ s.expireTime

instance (s : TimerState) : Decidable s.timerPending := inferInstanceAs (Decidable (_ ≤ _))

def timerMod (s : TimerState) (expireTime : Int) : TimerState := { s with expireTime := max expireTime 0 }

def timerDel (s : TimerState) : TimerState := { s with expireTime := -1 }

def alarmNs (s : TimerState) : Int :=
  (s.alarmLowNs.setWidth 64 ||| (s.alarmHighNs.signExtend 64 <<< 32)).toInt

end TimerState

/-- `goldfish_timer_read`; there is no result if `cpu_abort` ends the program. -/
def timerRead (s : TimerState) (offset : Nat) : Option (BitVec 32 × TimerState) :=
  if offset = timerTimeLow then
    let nowNs := BitVec.ofInt 64 s.clock
    some (nowNs.setWidth 32, { s with nowNs := nowNs })
  else if offset = timerTimeHigh then some ((s.nowNs.sshiftRight 32).setWidth 32, s)
  else none

def timerWrite (s : TimerState) (offset : Nat) (valueNs : BitVec 32) : Option TimerState :=
  if offset = timerAlarmLow then
    let s := { s with alarmLowNs := valueNs }
    if s.alarmNs ≤ s.clock then some { s with irq := true }
    else some { s.timerMod s.alarmNs with armed := 1 }
  else if offset = timerAlarmHigh then some { s with alarmHighNs := valueNs }
  else if offset = timerClearAlarm then some { s.timerDel with armed := 0, irq := false }
  else if offset = timerClearInterrupt then some { s with irq := false }
  else none

def timerTick (s : TimerState) : TimerState := { s with armed := 0, irq := true }

/-! ### Runs -/

/-- A device in a run, and the alarm that the last write of the low half was for. -/
structure Traced where
  dev : TimerState
  programmed : Int
deriving DecidableEq, Repr

inductive Act where
  | write (offset : Nat) (valueNs : BitVec 32)
  | read (offset : Nat)
  | advance (time : Int)
  | tick

def nextAlarm (s : TimerState) (valueNs : BitVec 32) : Int := { s with alarmLowNs := valueNs }.alarmNs

/-- A step. The clock does not go back, and a timer fires once it has expired, taken
off the list before its callback is called. -/
def Acts (s : Traced) : Act → Traced → Prop
  | .write offset valueNs, s' =>
    timerWrite s.dev offset valueNs = some s'.dev ∧
      s'.programmed = if offset = timerAlarmLow then nextAlarm s.dev valueNs else s.programmed
  | .read offset, s' => (∃ v, timerRead s.dev offset = some (v, s'.dev)) ∧ s'.programmed = s.programmed
  | .advance time, s' => s.dev.clock ≤ time ∧ s' = { s with dev := { s.dev with clock := time } }
  | .tick, s' =>
    (s.dev.timerPending ∧ s.dev.expireTime ≤ s.dev.clock) ∧ s' = { s with dev := timerTick s.dev.timerDel }

/-- The state `goldfish_timer_and_rtc_init` sets up. -/
def Starts (s : Traced) : Prop :=
  s.dev.armed = 0 ∧ s.dev.expireTime = -1 ∧ 0 ≤ s.dev.clock

/-- What `armed` and the alarm registers say of the timer is true. -/
def Right (s : Traced) : Prop :=
  (s.dev.armed = 1 ↔ s.dev.timerPending) ∧ (s.dev.timerPending → s.dev.expireTime = s.programmed)

instance (s : Traced) : Decidable (Starts s) := inferInstanceAs (Decidable (_ ∧ _))

instance (s : Traced) : Decidable (Right s) := inferInstanceAs (Decidable (_ ∧ _))

/-- An alarm that is past already is written only if no timer is set, or one for the
same time. -/
def Meets (s : Traced) : Act → Prop
  | .write offset valueNs =>
    offset = timerAlarmLow → nextAlarm s.dev valueNs ≤ s.dev.clock →
      ¬ s.dev.timerPending ∨ s.dev.expireTime = nextAlarm s.dev valueNs
  | _ => True

/-! ### The steps -/

variable {s : TimerState} {valueNs : BitVec 32} {s' : Traced} {offset : Nat} {a : Act}

theorem timerWrite_low_past (h : nextAlarm s valueNs ≤ s.clock) :
    timerWrite s timerAlarmLow valueNs = some { s with alarmLowNs := valueNs, irq := true } := by
  rw [timerWrite, if_pos rfl]
  exact if_pos h

theorem timerWrite_low_future (h : s.clock < nextAlarm s valueNs) : timerWrite s timerAlarmLow valueNs = some
      { s with alarmLowNs := valueNs, expireTime := max (nextAlarm s valueNs) 0, armed := 1 } := by
  rw [timerWrite, if_pos rfl]
  exact if_neg (not_le.mpr h)

/-- A write of another register clears the timer and `armed` or changes neither. -/
theorem timerWrite_other {s' : TimerState} (hoff : offset ≠ timerAlarmLow) (h : timerWrite s offset valueNs = some s') :
    s'.clock = s.clock ∧ (s'.armed = s.armed ∧ s'.expireTime = s.expireTime ∨ s'.armed = 0 ∧ s'.expireTime = -1) := by
  rw [timerWrite, if_neg hoff] at h
  split at h
  · rw [← some.inj h]
    exact ⟨rfl, .inl ⟨rfl, rfl⟩⟩
  split at h
  · rw [← some.inj h]
    exact ⟨rfl, .inr ⟨rfl, rfl⟩⟩
  · split at h
    · rw [← some.inj h]
      exact ⟨rfl, .inl ⟨rfl, rfl⟩⟩
    · exact absurd h nofun

theorem timerRead_timer {s' : TimerState} {v : BitVec 32} (h : timerRead s offset = some (v, s')) :
    s'.clock = s.clock ∧ s'.armed = s.armed ∧ s'.expireTime = s.expireTime := by
  rw [timerRead] at h
  split at h
  · obtain ⟨-, rfl⟩ := Prod.mk.inj (some.inj h)
    exact ⟨rfl, rfl, rfl⟩
  · split at h
    · obtain ⟨-, rfl⟩ := Prod.mk.inj (some.inj h)
      exact ⟨rfl, rfl, rfl⟩
    · exact absurd h nofun

variable {s : Traced}

theorem Acts.clock_le (h : Acts s a s') : s.dev.clock ≤ s'.dev.clock := by
  cases a with
  | write offset valueNs =>
    by_cases hoff : offset = timerAlarmLow
    · subst hoff
      by_cases hpast : nextAlarm s.dev valueNs ≤ s.dev.clock
      · have := h.1
        rw [timerWrite_low_past hpast] at this
        rw [← some.inj this]
      · have := h.1
        rw [timerWrite_low_future (not_le.mp hpast)] at this
        rw [← some.inj this]
    · exact (timerWrite_other hoff h.1).1.ge
  | read offset =>
    obtain ⟨⟨v, hread⟩, -⟩ := h
    exact (timerRead_timer hread).1.ge
  | advance time =>
    obtain ⟨hle, rfl⟩ := h
    exact hle
  | tick =>
    obtain ⟨-, rfl⟩ := h
    exact le_refl s.dev.clock

theorem Right.of_same (h : Right s) (harmed : s'.dev.armed = s.dev.armed)
    (hexp : s'.dev.expireTime = s.dev.expireTime) (hprog : s'.programmed = s.programmed) : Right s' := by
  rw [Right, TimerState.timerPending, harmed, hexp, hprog]
  exact h

theorem right_idle (harmed : s.dev.armed = 0) (hexp : s.dev.expireTime = -1) : Right s := by
  rw [Right, TimerState.timerPending, harmed, hexp]
  omega

/-- A step keeps a right device right if and only if it meets the condition. -/
theorem right_step_iff (hclock : 0 ≤ s.dev.clock) (h : Right s) (hact : Acts s a s') : Right s' ↔ Meets s a := by
  cases a with
  | write offset valueNs =>
    obtain ⟨hwrite, hprog⟩ := hact
    by_cases hoff : offset = timerAlarmLow
    · subst hoff
      rw [if_pos rfl] at hprog
      by_cases hpast : nextAlarm s.dev valueNs ≤ s.dev.clock
      · -- the timer is left alone, whatever it was set for
        rw [timerWrite_low_past hpast] at hwrite
        have harmed : s'.dev.armed = s.dev.armed := by rw [← some.inj hwrite]
        have hexp : s'.dev.expireTime = s.dev.expireTime := by rw [← some.inj hwrite]
        rw [Right, TimerState.timerPending, harmed, hexp, hprog]
        constructor
        · intro hright _ _
          by_cases hpending : s.dev.timerPending
          · exact .inr (hright.2 hpending)
          · exact .inl hpending
        · intro hmeets
          refine ⟨h.1, fun hpending => ?_⟩
          exact (hmeets rfl hpast).resolve_left (not_not.mpr hpending)
      · have hfuture : s.dev.clock < nextAlarm s.dev valueNs := not_le.mp hpast
        rw [timerWrite_low_future hfuture] at hwrite
        have harmed : s'.dev.armed = 1 := by rw [← some.inj hwrite]
        have hexp : s'.dev.expireTime = nextAlarm s.dev valueNs := by
          rw [← some.inj hwrite]
          exact max_eq_left (by omega)
        have hright : Right s' := by
          rw [Right, TimerState.timerPending, harmed, hexp, hprog]
          omega
        exact iff_of_true hright fun _ hle => absurd hle hpast
    · rw [if_neg hoff] at hprog
      apply iff_of_true _ fun heq => absurd heq hoff
      obtain ⟨-, ⟨harmed, hexp⟩ | ⟨harmed, hexp⟩⟩ := timerWrite_other hoff hwrite
      · exact h.of_same harmed hexp hprog
      · exact right_idle harmed hexp
  | read offset =>
    obtain ⟨⟨v, hread⟩, hprog⟩ := hact
    obtain ⟨-, harmed, hexp⟩ := timerRead_timer hread
    exact iff_of_true (h.of_same harmed hexp hprog) trivial
  | advance time =>
    obtain ⟨-, rfl⟩ := hact
    exact iff_of_true (h.of_same rfl rfl rfl) trivial
  | tick =>
    obtain ⟨-, rfl⟩ := hact
    exact iff_of_true (right_idle rfl rfl) trivial

/-- In a run that writes past alarms only while no other alarm is pending, `armed` says
whether the timer is set and the timer is set for the alarm written last. -/
theorem alarm_right {s : Traced} (h : Reach Starts (fun s a s' => Meets s a ∧ Acts s a s') s) : Right s := by
  have hinv : 0 ≤ s.dev.clock ∧ Right s := by
    apply h.invariant
    · intro s ⟨harmed, hexp, hclock⟩
      exact ⟨hclock, right_idle harmed hexp⟩
    · intro s a s' ⟨hclock, hright⟩ ⟨hmeets, hact⟩
      exact ⟨hclock.trans hact.clock_le, (right_step_iff hclock hright hact).mpr hmeets⟩
  exact hinv.2

def setFor100 : Traced := ⟨⟨100, 0, 0, 1, 100, false, 10⟩, 100⟩

/-- The alarm comes and is written once more before the timer fires; then one that is past is
written. -/
theorem setFor100_right : Right setFor100 ∧ Right ⟨⟨100, 0, 0, 1, 100, true, 100⟩, 100⟩ ∧
    Right ⟨⟨5, 0, 0, 0, -1, true, 100⟩, 5⟩ := by
  have hstart : Starts ⟨⟨0, 0, 0, 0, -1, false, 10⟩, 0⟩ := by decide
  have hset : Reach Starts (fun s a s' => Meets s a ∧ Acts s a s') setFor100 :=
    .step (a := .write timerAlarmLow 100) (.start hstart) ⟨fun _ _ => .inl (by decide), by decide, by decide⟩
  have hdue : Reach Starts (fun s a s' => Meets s a ∧ Acts s a s') ⟨⟨100, 0, 0, 1, 100, false, 100⟩, 100⟩ :=
    .step (a := .advance 100) hset ⟨trivial, by decide, rfl⟩
  have hagain : Reach Starts (fun s a s' => Meets s a ∧ Acts s a s') ⟨⟨100, 0, 0, 1, 100, true, 100⟩, 100⟩ :=
    .step (a := .write timerAlarmLow 100) hdue ⟨fun _ _ => .inr (by decide), by decide, by decide⟩
  have hfired : Reach Starts (fun s a s' => Meets s a ∧ Acts s a s') ⟨⟨100, 0, 0, 0, -1, true, 100⟩, 100⟩ :=
    .step (a := .tick) hagain ⟨trivial, by decide, rfl⟩
  exact ⟨alarm_right hset, alarm_right hagain, alarm_right (.step (a := .write timerAlarmLow 5) hfired
    ⟨fun _ _ => .inl (by decide), by decide, by decide⟩)⟩

/-- The alarm is then written again, for 5: the timer stays set for 100. -/
theorem past_alarm_leaves_timer : ∃ s, Reach Starts Acts s ∧
    s.dev.armed = 1 ∧ s.dev.expireTime = 100 ∧ s.programmed = 5 ∧ ¬ Right s := by
  have hstart : Starts ⟨⟨0, 0, 0, 0, -1, false, 10⟩, 0⟩ := by decide
  have hset : Reach Starts Acts setFor100 :=
    .step (a := .write timerAlarmLow 100) (.start hstart) ⟨by decide, by decide⟩
  refine ⟨⟨⟨5, 0, 0, 1, 100, true, 10⟩, 5⟩, ?_, rfl, rfl, rfl, by decide⟩
  exact .step (a := .write timerAlarmLow 5) hset ⟨by decide, by decide⟩

end GemDroid.Goldfish.TimerDevice
