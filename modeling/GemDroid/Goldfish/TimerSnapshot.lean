import GemDroid.Goldfish.TimerDevice
import GemDroid.Lib.BigEndian

/-! Snapshots of the timer (`hw/android/goldfish/timer.c`).

What is saved is the time until the alarm of the registers; what is loaded sets the host's timer, but not
the registers. -/
namespace GemDroid.Goldfish.TimerDevice
open Lib

def timerSaveVersion : Nat := 1

/-- The time until the alarm that is written, as the alarm registers have it. -/
def savedLeft (s : TimerState) : BitVec 64 := BitVec.ofInt 64 (s.alarmNs - s.clock)

/-- `goldfish_timer_save`, as the bytes it writes. -/
def timerSave (s : TimerState) : List Nat :=
  putBe 8 s.nowNs.toNat ++ (putBe 1 (s.armed % 256).toNat ++
    if s.armed ≠ 0 then putBe 8 (savedLeft s).toNat else [])

/-- `goldfish_timer_load`; it does not touch the alarm registers. -/
def timerLoad (s : TimerState) (f : List Nat) (versionId : Nat) : Option TimerState :=
  if versionId ≠ timerSaveVersion then none
  else
    let (nowNs, f) := getBe 8 f
    let (armed, f) := getBe 1 f
    let s := { s with nowNs := BitVec.ofNat 64 nowNs, armed := armed }
    if s.armed ≠ 0 then
      let diffTks := BitVec.ofNat 64 (getBe 8 f).1
      let alarmTks := (BitVec.ofInt 64 s.clock + diffTks).toInt
      if alarmTks ≤ s.clock then some { s with irq := true, armed := 0 } else some (s.timerMod alarmTks)
    else some s

/-- A timer and the time until its alarm. -/
structure Chain where
  dev : TimerState
  left : Int

/-- What may happen to a timer between two snapshots. -/
inductive Move where
  | advance (time : Int)
  | restore (target : TimerState)

/-- The clock of the host, an `int64_t`. -/
def InClock (time : Int) : Prop := 0 ≤ time ∧ time < 2 ^ 63

/-- A move: the clock runs, or the timer is saved and loaded into another device, with a clock of its own. -/
def Moves (s : Chain) : Move → Chain → Prop
  | .advance time, s' =>
    (s.dev.clock ≤ time ∧ InClock time) ∧ s' = ⟨{ s.dev with clock := time }, s.left - (time - s.dev.clock)⟩
  | .restore target, s' =>
    InClock target.clock ∧ timerLoad target (timerSave s.dev) timerSaveVersion = some s'.dev ∧ s'.left = s.left

/-- An armed timer, as a write of the alarm leaves it. -/
def Armed (s : Chain) : Prop :=
  s.dev.armed = 1 ∧ InClock s.dev.clock ∧ s.dev.clock < s.dev.alarmNs ∧
    s.dev.expireTime = s.dev.alarmNs ∧ s.left = s.dev.alarmNs - s.dev.clock

/-- While the timer is armed, the time that is saved is the time until it expires, and none is lost. -/
def Lossless (s : Chain) : Prop :=
  s.dev.armed ≠ 0 → (savedLeft s.dev).toInt = s.dev.expireTime - s.dev.clock ∧ s.left = s.dev.expireTime - s.dev.clock

/-- The registers of a device into which an armed timer is loaded are for the same alarm already. -/
def RegistersMeet (s : Chain) : Move → Prop
  | .restore target => s.dev.armed ≠ 0 → 0 < s.left → target.alarmNs = target.clock + s.left
  | _ => True

theorem toInt_ofInt {x : Int} (hlow : -2 ^ 63 ≤ x) (hhigh : x < 2 ^ 63) : (BitVec.ofInt 64 x).toInt = x :=
  BitVec.toInt_ofInt_eq_self (by decide) hlow hhigh

/-- What a chain keeps. -/
structure Kept (s : Chain) : Prop where
  clock : InClock s.dev.clock
  armed : s.dev.armed = 0 ∨ s.dev.armed = 1 ∧ 0 ≤ s.dev.alarmNs ∧ s.dev.expireTime = s.dev.alarmNs ∧
    s.left = s.dev.alarmNs - s.dev.clock

theorem alarmNs_lt (s : TimerState) : s.alarmNs < 2 ^ 63 := BitVec.toInt_lt

theorem Kept.lossless {s : Chain} (h : Kept s) : Lossless s := by
  obtain ⟨hlow, hhigh⟩ := h.clock
  intro harmed
  obtain hnot | ⟨-, halarm, hexp, hleft⟩ := h.armed
  · exact absurd hnot harmed
  · have := alarmNs_lt s.dev
    rw [savedLeft, toInt_ofInt (by omega) (by omega)]
    omega

/-- What is loaded from a timer that is not armed, and from one that is. -/
theorem timerLoad_idle {s : TimerState} (target : TimerState) (h : s.armed = 0) : ∃ nowNs,
    timerLoad target (timerSave s) timerSaveVersion = some { target with nowNs := nowNs, armed := 0 } := by
  refine ⟨BitVec.ofNat 64 (s.nowNs.toNat % 256 ^ 8), ?_⟩
  have hbyte : getBe 1 (putBe 1 0) = (0, []) := rfl
  simp [timerLoad, timerSave, getBe_putBe, h, hbyte]

theorem timerLoad_armed {s : TimerState} (target : TimerState) (h : s.armed = 1) : ∃ nowNs,
    timerLoad target (timerSave s) timerSaveVersion =
      if (BitVec.ofInt 64 target.clock + savedLeft s).toInt ≤ target.clock then
        some { target with nowNs := nowNs, irq := true, armed := 0 }
      else some { target with
        nowNs := nowNs, armed := 1, expireTime := max (BitVec.ofInt 64 target.clock + savedLeft s).toInt 0 } := by
  refine ⟨BitVec.ofNat 64 (s.nowNs.toNat % 256 ^ 8), ?_⟩
  have hlt : (savedLeft s).toNat < 256 ^ 8 := (savedLeft s).isLt
  have hleft := getBe_putBe 8 (savedLeft s).toNat []
  rw [List.append_nil, Nat.mod_eq_of_lt hlt] at hleft
  simp [timerLoad, timerSave, getBe_putBe, h, hleft, TimerState.timerMod]

theorem Kept.move {s s' : Chain} {m : Move} (h : Kept s) (hmeets : RegistersMeet s m) (hmove : Moves s m s') :
    Kept s' := by
  obtain ⟨dev, left⟩ := s'
  cases m with
  | advance time =>
    obtain ⟨⟨hle, htime⟩, heq⟩ := hmove
    rw [heq]
    refine ⟨htime, h.armed.imp_right fun ⟨harmed, halarm, hexp, hleft⟩ => ⟨harmed, halarm, hexp, ?_⟩⟩
    change s.left - (time - s.dev.clock) = s.dev.alarmNs - time
    omega
  | restore target =>
    obtain ⟨hclock, hload, hsame⟩ := hmove
    obtain hidle | ⟨harmed, halarm, -, hleft⟩ := h.armed
    · obtain ⟨nowNs, hidle⟩ := timerLoad_idle target hidle
      obtain rfl := Option.some.inj (hidle.symm.trans hload)
      exact ⟨hclock, .inl rfl⟩
    obtain ⟨nowNs, harm⟩ := timerLoad_armed target harmed
    rw [hload, savedLeft, ← BitVec.ofInt_add, ← hleft] at harm
    obtain ⟨hlow, hhigh⟩ := hclock
    obtain ⟨hlow', hhigh'⟩ := h.clock
    have hlt := alarmNs_lt target
    by_cases hpast : s.left ≤ 0
    · rw [toInt_ofInt (by omega) (by omega), if_pos (by omega)] at harm
      obtain rfl := Option.some.inj harm
      exact ⟨⟨hlow, hhigh⟩, .inl rfl⟩
    have hregs := hmeets (by omega) (by omega)
    rw [toInt_ofInt (by omega) (by omega), if_neg (by omega), ← hregs, max_eq_left (by omega)] at harm
    obtain rfl := Option.some.inj harm
    refine ⟨⟨hlow, hhigh⟩, .inr ⟨rfl, ?_, rfl, ?_⟩⟩
    · change 0 ≤ target.alarmNs
      omega
    · change left = target.alarmNs - target.clock
      have : left = s.left := hsame
      omega

def saved100 : Chain := ⟨setFor100.dev, 90⟩

theorem saved100_armed : Armed saved100 := ⟨rfl, ⟨by decide, by decide⟩, by decide, by decide, by decide⟩

end GemDroid.Goldfish.TimerDevice
