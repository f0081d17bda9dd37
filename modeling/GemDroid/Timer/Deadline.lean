import GemDroid.Timer.Runs

/-! How long the main loop waits for timers (`main-loop.c`, `qemu-timer.c`).

The deadline of a list is the time until its first timer expires, or -1. Every clock has the one list
that `qemu_clock_init` gives it. `qemu_soonest_timeout` takes -1 for the largest number, and
`qemu_next_alarm_deadline` takes it for the smallest. -/
namespace GemDroid.Timer
open Lib Function

/-! ### The model -/

/-- A list of timers that calls have made, and its clock as it is read; times fit an `int64_t`. -/
structure Clocked (T : Type) [DecidableEq T] where
  system : System T
  enabled : Bool
  now : Int
  reach : Reach System.Init System.Step system
  now_nonneg : 0 ≤ now
  expireTime_lt : ∀ ts, system.list.expireTime ts < 9223372036854775808

inductive QEMUClockType where
  | realtime
  | virtual
  | host
  deriving DecidableEq, Repr

def qemuSoonestTimeout (timeout1 timeout2 : Int) : Int :=
  if timeout1 % 18446744073709551616 < timeout2 % 18446744073709551616 then timeout1 else timeout2

def qemuClockUseForDeadline (useIcount : Bool) (type : QEMUClockType) : Bool := !(useIcount && type == .virtual)

variable {T : Type} [DecidableEq T]

def Clocked.timerlistHasTimers (tl : Clocked T) : Bool := (tl.system.list.link .activeTimers).isSome

def Clocked.timerlistDeadlineNs (tl : Clocked T) : Int :=
  if tl.enabled then
    match tl.system.list.link .activeTimers with
    | none => -1
    | some ts =>
      let delta := tl.system.list.expireTime ts - tl.now
      if delta ≤ 0 then 0 else delta
  else -1

section Group
variable (tlg : QEMUClockType → Clocked T) (useIcount : Bool)

/-- The loop over the only list of the clock. -/
def qemuClockDeadlineNsAll (type : QEMUClockType) : Int := qemuSoonestTimeout (-1) (tlg type).timerlistDeadlineNs

def groupLoop (deadline : Int) (types : List QEMUClockType) : Int :=
  types.foldl (fun deadline type =>
    if qemuClockUseForDeadline useIcount type then qemuSoonestTimeout deadline (tlg type).timerlistDeadlineNs
    else deadline) deadline

def timerlistgroupDeadlineNs : Int := groupLoop tlg useIcount (-1) [.realtime, .virtual, .host]

/-- The milliseconds for which the main loop waits, not on Windows. -/
def qemuCalculateTimeout (vmRunning tcgHasWork : Bool) : Int :=
  if !vmRunning then 5000
  else if tcgHasWork then 0
  else
    let timeoutNs := qemuSoonestTimeout (5000 * 1000000) (timerlistgroupDeadlineNs tlg useIcount)
    (timeoutNs + 999999).tdiv 1000000

def qemuNextAlarmDeadline : Int :=
  let delta := if useIcount then 2147483647 else qemuClockDeadlineNsAll tlg .virtual
  let hdelta := qemuClockDeadlineNsAll tlg .host
  let delta := if hdelta < delta then hdelta else delta
  let rtdelta := qemuClockDeadlineNsAll tlg .realtime
  if rtdelta < delta then rtdelta else delta

def minTimerRearmNs : Int := 250000

/-- What is left of the host timer after the call, from what was left before; 0 if it does not run. -/
def dynticksRearmTimer (currentNs : Int) : Int :=
  if !(tlg .realtime).timerlistHasTimers && !(tlg .virtual).timerlistHasTimers &&
      !(tlg .host).timerlistHasTimers then currentNs
  else
    let nearestDeltaNs := qemuNextAlarmDeadline tlg useIcount
    let nearestDeltaNs := if nearestDeltaNs < minTimerRearmNs then minTimerRearmNs else nearestDeltaNs
    if currentNs ≠ 0 ∧ currentNs ≤ nearestDeltaNs then currentNs else nearestDeltaNs

end Group

/-! ### Deadlines -/

/-- An active timer of the list expires after the time `w`. -/
def Clocked.Waits (tl : Clocked T) (w : Int) : Prop :=
  tl.enabled = true ∧ ∃ ts, tl.system.list.expireTime ts ≠ -1 ∧ w = max 0 (tl.system.list.expireTime ts - tl.now)

/-- `d` is the soonest of some times, and -1 if there is none. -/
def Soonest (W : Int → Prop) (d : Int) : Prop :=
  (d = -1 ∧ ∀ w, ¬ W w) ∨ (W d ∧ (0 ≤ d ∧ d < 9223372036854775808) ∧ ∀ w, W w → d ≤ w)

theorem soonest_none : Soonest (fun _ => False) (-1) := .inl ⟨rfl, fun _ => id⟩

theorem Soonest.timeout {W W' : Int → Prop} {d d' : Int} (h : Soonest W d) (h' : Soonest W' d') :
    Soonest (fun w => W w ∨ W' w) (qemuSoonestTimeout d d') := by
  unfold qemuSoonestTimeout
  obtain ⟨rfl, hnone⟩ | ⟨hd, hrange, hle⟩ := h
  · obtain ⟨rfl, hnone'⟩ | ⟨hd', hrange', hle'⟩ := h'
    · exact .inl ⟨if_neg (by omega), fun w hw => hw.elim (hnone w) (hnone' w)⟩
    · rw [if_neg (by omega)]
      exact .inr ⟨.inr hd', hrange', fun w hw => hle' w (hw.resolve_left (hnone w))⟩
  · obtain ⟨rfl, hnone'⟩ | ⟨hd', hrange', hle'⟩ := h'
    · rw [if_pos (by omega)]
      exact .inr ⟨.inl hd, hrange, fun w hw => hle w (hw.resolve_right (hnone' w))⟩
    · split
      · refine .inr ⟨.inl hd, hrange, fun w hw => hw.elim (hle w) fun hw => ?_⟩
        have := hle' w hw
        omega
      · refine .inr ⟨.inr hd', hrange', fun w hw => hw.elim (fun hw => ?_) (hle' w)⟩
        have := hle w hw
        omega

/-- The list is sorted, so its first timer is the one that expires first. -/
theorem Clocked.soonest (tl : Clocked T) : Soonest tl.Waits tl.timerlistDeadlineNs := by
  obtain ⟨l, hl, -⟩ := (System.Sound.reach tl.reach).list
  unfold timerlistDeadlineNs
  cases henabled : tl.enabled with
  | false => exact .inl ⟨rfl, fun w hw => by simp [Waits, henabled] at hw⟩
  | true =>
    cases l with
    | nil =>
      have hlink : tl.system.list.link .activeTimers = none := hl.active
      simp only [hlink, if_true]
      refine .inl ⟨rfl, fun w hw => ?_⟩
      obtain ⟨-, ts, hts, -⟩ := hw
      exact absurd ((hl.mem ts).mpr hts) List.not_mem_nil
    | cons ts rest =>
      have hlink : tl.system.list.link .activeTimers = some ts := hl.active.1
      have hlt := tl.expireTime_lt ts
      have hnow := tl.now_nonneg
      simp only [hlink, if_true]
      refine .inr ⟨⟨henabled, ts, (hl.mem ts).mp List.mem_cons_self, by omega⟩, by omega, fun w hw => ?_⟩
      obtain ⟨-, t, ht, rfl⟩ := hw
      have hle : tl.system.list.expireTime ts ≤ tl.system.list.expireTime t := by
        obtain rfl | hin := List.mem_cons.mp ((hl.mem t).mpr ht)
        · exact Int.le_refl _
        · exact List.rel_of_pairwise_cons hl.sorted hin
      omega

section Due
variable (tlg : QEMUClockType → Clocked T) (useIcount : Bool)

/-- A timer of a clock that is used for deadlines expires after the time `w`. -/
def Due (w : Int) : Prop := ∃ type, qemuClockUseForDeadline useIcount type = true ∧ (tlg type).Waits w

theorem Soonest.group {W : Int → Prop} {d : Int} (types : List QEMUClockType) (h : Soonest W d) :
    Soonest (fun w => W w ∨ ∃ type ∈ types, qemuClockUseForDeadline useIcount type = true ∧ (tlg type).Waits w)
      (groupLoop tlg useIcount d types) := by
  induction types generalizing W d with
  | nil => simpa [groupLoop] using h
  | cons type types ih =>
    cases huse : qemuClockUseForDeadline useIcount type with
    | true => simpa [groupLoop, huse, or_assoc] using ih (h.timeout (tlg type).soonest)
    | false => simpa [groupLoop, huse] using ih h

theorem soonest_due : Soonest (Due tlg useIcount) (timerlistgroupDeadlineNs tlg useIcount) := by
  have hall : ∀ type, type ∈ [QEMUClockType.realtime, .virtual, .host] := by
    intro type
    cases type <;> simp
  have hgroup := soonest_none.group tlg useIcount [.realtime, .virtual, .host]
  simp only [hall, true_and, false_or] at hgroup
  exact hgroup

/-- The main loop waits for five seconds at most. While the machine runs it is less than a millisecond
late for the first timer, and it is early only if there is work. -/
theorem timeout_in_time (vmRunning tcgHasWork : Bool) :
    ∃ timeout, timeout = qemuCalculateTimeout tlg useIcount vmRunning tcgHasWork ∧ 0 ≤ timeout ∧ timeout ≤ 5000 ∧
      (vmRunning = true → ∀ w, Due tlg useIcount w → timeout * 1000000 < w + 1000000) ∧
      (timeout = 5000 ∨ tcgHasWork = true ∨ ∃ w, Due tlg useIcount w ∧ w ≤ timeout * 1000000) := by
  have hmax : Soonest (fun w => w = 5000 * 1000000) (5000 * 1000000) := .inr ⟨rfl, by omega, fun w hw => by omega⟩
  obtain ⟨-, hnone⟩ | ⟨hmem, hrange, hle⟩ := hmax.timeout (soonest_due tlg useIcount)
  · exact absurd (.inl rfl) (hnone (5000 * 1000000))
  have hfive := hle _ (.inl rfl)
  refine ⟨_, rfl, ?_⟩
  unfold qemuCalculateTimeout
  cases vmRunning with
  | false => simp
  | true =>
    cases tcgHasWork with
    | true =>
      refine ⟨by simp, by simp, fun _ w hw => ?_, .inr (.inl rfl)⟩
      obtain ⟨_, -, -, _, -, rfl⟩ := hw
      simp
      omega
    | false =>
      simp only [Bool.not_true, Bool.false_eq_true, if_false]
      rw [Int.tdiv_eq_ediv_of_nonneg (by omega)]
      refine ⟨by omega, by omega, fun _ w hw => ?_, ?_⟩
      · have := hle w (.inr hw)
        omega
      · obtain hmax | hw := hmem
        · exact .inl (by omega)
        · exact .inr (.inr ⟨_, hw, by omega⟩)

/-! ### The alarm -/

/-- The alarm goes by the least deadline, as signed numbers. -/
theorem qemuNextAlarmDeadline_le {useIcount : Bool} {type : QEMUClockType}
    (huse : qemuClockUseForDeadline useIcount type = true) :
    qemuNextAlarmDeadline tlg useIcount ≤ qemuClockDeadlineNsAll tlg type := by
  unfold qemuNextAlarmDeadline
  cases type with
  | realtime => grind
  | host => grind
  | virtual =>
    have : useIcount = false := by simpa [qemuClockUseForDeadline] using huse
    grind

theorem soonest_clock (type : QEMUClockType) : Soonest (tlg type).Waits (qemuClockDeadlineNsAll tlg type) := by
  simpa [qemuClockDeadlineNsAll] using soonest_none.timeout (tlg type).soonest

theorem dynticksRearmTimer_active (hactive : ∃ type, (tlg type).timerlistHasTimers = true) (currentNs : Int) :
    ∃ n, n = max (qemuNextAlarmDeadline tlg useIcount) minTimerRearmNs ∧
      dynticksRearmTimer tlg useIcount currentNs = if currentNs ≠ 0 ∧ currentNs ≤ n then currentNs else n := by
  have hsome : (!(tlg .realtime).timerlistHasTimers && !(tlg .virtual).timerlistHasTimers &&
      !(tlg .host).timerlistHasTimers) = false := by
    obtain ⟨type, htype⟩ := hactive
    cases type <;> simp [htype]
  simp only [dynticksRearmTimer, hsome, Bool.false_eq_true, if_false]
  exact ⟨_, by omega, rfl⟩

/-- While a timer is active, a call leaves the host timer running. It fires before any timer of a clock
that is used expires, or in 250 microseconds. -/
theorem alarm_in_time (hactive : ∃ type, (tlg type).timerlistHasTimers = true) (currentNs : Int) :
    dynticksRearmTimer tlg useIcount currentNs ≠ 0 ∧
      ∀ w, Due tlg useIcount w → dynticksRearmTimer tlg useIcount currentNs ≤ max w minTimerRearmNs := by
  obtain ⟨n, hn, htimer⟩ := dynticksRearmTimer_active tlg useIcount hactive currentNs
  have hmin : minTimerRearmNs = 250000 := rfl
  rw [htimer]
  refine ⟨by split <;> omega, fun w hw => ?_⟩
  obtain ⟨type, huse, hw⟩ := hw
  have hnext := qemuNextAlarmDeadline_le tlg huse
  obtain ⟨-, hnone⟩ | ⟨-, -, hle⟩ := soonest_clock tlg type
  · exact absurd hw (hnone w)
  · have := hle w hw
    split <;> omega

/-- The deadline -1 of a clock without a timer that expires is the least: then the host timer fires in
250 microseconds, however late the timers of the other clocks expire. -/
theorem alarm_of_idle_clock (hactive : ∃ type, (tlg type).timerlistHasTimers = true)
    (hidle : ∃ type, qemuClockUseForDeadline useIcount type = true ∧ ∀ w, ¬ (tlg type).Waits w) (currentNs : Int) :
    dynticksRearmTimer tlg useIcount currentNs =
      if currentNs ≠ 0 ∧ currentNs ≤ minTimerRearmNs then currentNs else minTimerRearmNs := by
  obtain ⟨n, hn, htimer⟩ := dynticksRearmTimer_active tlg useIcount hactive currentNs
  obtain ⟨type, huse, hnone⟩ := hidle
  have hnext := qemuNextAlarmDeadline_le tlg huse
  obtain ⟨hdeadline, -⟩ | ⟨hw, -⟩ := soonest_clock tlg type
  · have hmin : minTimerRearmNs = 250000 := rfl
    have hleast : n = minTimerRearmNs := by omega
    rw [htimer, hleast]
  · exact absurd hw (hnone _)

end Due

/-- The first timer is armed for an hour. -/
def armedLate : System Bool where
  list := { armedZero.list with expireTime := update (update (fun _ => -1) false (-1)) false 3600000000000 }
  runs := []
  log := [.modified false 3600000000000]

theorem step_armedLate : idle.Step (.mod false 3600000000000) armedLate := by
  refine ⟨1, ?_⟩
  intro fuel hfuel
  obtain ⟨k, rfl⟩ := Nat.exists_eq_add_of_le' hfuel
  rfl

theorem reach_armedLate (late : Bool) : Reach System.Init System.Step (if late then armedLate else idle) := by
  cases late with
  | false => exact .start idle_init
  | true => exact .step (.start idle_init) step_armedLate

theorem armedLate_lt (late : Bool) (ts : Bool) :
    (if late then armedLate else idle).list.expireTime ts < 9223372036854775808 := by
  cases late <;> cases ts <;> decide

/-- Only the virtual clock has a timer. -/
def virtualLate (type : QEMUClockType) : Clocked Bool :=
  ⟨_, true, 0, reach_armedLate (type == .virtual), Int.le_refl 0, armedLate_lt _⟩

theorem due_virtualLate : Due virtualLate false 3600000000000 :=
  ⟨.virtual, rfl, rfl, false, by decide, rfl⟩

theorem late_alarm_in_time : dynticksRearmTimer virtualLate false 0 ≠ 0 ∧
    dynticksRearmTimer virtualLate false 0 ≤ 3600000000000 := by
  obtain ⟨hne, hle⟩ := alarm_in_time virtualLate false ⟨.virtual, rfl⟩ 0
  exact ⟨hne, hle _ due_virtualLate⟩

theorem late_alarm_early : Due virtualLate false 3600000000000 ∧ dynticksRearmTimer virtualLate false 0 = 250000 := by
  refine ⟨due_virtualLate,
    alarm_of_idle_clock virtualLate false ⟨.virtual, rfl⟩ ⟨.host, rfl, fun w hw => ?_⟩ 0⟩
  obtain ⟨-, ts, hts, -⟩ := hw
  exact hts rfl

end GemDroid.Timer
