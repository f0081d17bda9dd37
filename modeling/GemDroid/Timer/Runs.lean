import GemDroid.Timer.TimerList
import GemDroid.Lib.Reach

/-! Runs of the timers (`qemu-timer.c`).

Calls of `timer_del`, `timer_mod_ns` and `timer_mod_anticipate_ns` come in any order with passes of
the loops of `timerlist_run_timers`; what a callback does are the calls behind the pass that has
taken its timer. The log says what was asked for and what has happened, and `deadline` when the
callback of a timer is owed by then. -/
namespace GemDroid.Timer
open Lib Function Option List TimerList

/-! ### The system -/

inductive Entry (T : Type) where
  | deleted (ts : T)
  | modified (ts : T) (expireTime : Int)
  | anticipated (ts : T) (expireTime : Int)
  | fired (ts : T) (currentTime : Int)
  | returned (currentTime : Int) (progress : Bool)

open Entry

structure Run where
  currentTime : Int
  progress : Bool

structure System (T : Type) where
  list : TimerList T
  runs : List Run
  log : List (Entry T)

inductive Call (T : Type) where
  | del (ts : T)
  | mod (ts : T) (expireTime : Int)
  | anticipate (ts : T) (expireTime : Int)
  | start (enabled : Bool) (now : Int)
  | pass (run : Nat)

variable {T : Type} [DecidableEq T]

namespace System

def pass (s : System T) (i : Nat) (run : Run) : System T :=
  match s.list.takeExpired run.currentTime with
  | some (ts, list) => ⟨list, s.runs.set i { run with progress := true }, .fired ts run.currentTime :: s.log⟩
  | none => ⟨s.list, s.runs.eraseIdx i, .returned run.currentTime run.progress :: s.log⟩

/-- A call. A run starts with the time it reads from the clock, if the clock is enabled. -/
def exec (fuel : Nat) (s : System T) : Call T → Option (System T)
  | .del ts => (s.list.timerDel fuel ts).map fun list => ⟨list, s.runs, .deleted ts :: s.log⟩
  | .mod ts expireTime =>
    (s.list.timerModNs fuel ts expireTime).map fun r => ⟨r.1, s.runs, .modified ts expireTime :: s.log⟩
  | .anticipate ts expireTime =>
    (s.list.timerModAnticipateNs fuel ts expireTime).map fun r => ⟨r.1, s.runs, .anticipated ts expireTime :: s.log⟩
  | .start enabled now => some { s with runs := if enabled then ⟨now, false⟩ :: s.runs else s.runs }
  | .pass i => (s.runs[i]?).map fun run => s.pass i run

def Init (s : System T) : Prop :=
  s.list.link .activeTimers = none ∧ (∀ ts, s.list.expireTime ts = -1) ∧ s.runs = [] ∧ s.log = []

def Step (s : System T) (c : Call T) (s' : System T) : Prop := ∃ n, ∀ fuel ≥ n, s.exec fuel c = some s'

end System

/-! ### What is owed -/

/-- The deadline of a timer after an entry, from the one before it. -/
def Entry.owes (ts : T) (d : Option Int) : Entry T → Option Int
  | .deleted t => if t = ts then none else d
  | .modified t expireTime => if t = ts then some (max expireTime 0) else d
  | .anticipated t expireTime => if t = ts then some (d.elim (max expireTime 0) (min (max expireTime 0))) else d
  | .fired t _ => if t = ts then none else d
  | .returned .. => d

/-- The deadline of a timer: none if it has not been armed since its last callback or deletion. -/
def deadline (ts : T) : List (Entry T) → Option Int
  | [] => none
  | x :: log => x.owes ts (deadline ts log)

def Entry.arms (ts : T) (d : Option Int) : Entry T → Bool
  | .modified t _ => t = ts
  | .anticipated t expireTime => t = ts && d.all (expireTime < ·)
  | _ => false

def armedAt (ts : T) : List (Entry T) → Nat
  | [] => 0
  | x :: log => if x.arms ts (deadline ts log) then log.length else armedAt ts log

/-- A callback is owed and its deadline has passed; when a run returns no deadline has. -/
def Entry.Right (log : List (Entry T)) : Entry T → Prop
  | .fired ts currentTime => ∃ d, deadline ts log = some d ∧ d ≤ currentTime
  | .returned currentTime _ => ∀ ts d, deadline ts log = some d → currentTime < d
  | _ => True

def LogRight : List (Entry T) → Prop
  | [] => True
  | x :: log => x.Right log ∧ LogRight log

namespace System

/-- The list is sorted and holds the timers that have a deadline, and callbacks are made as they
should be. -/
structure Sound (s : System T) : Prop where
  list : ∃ l, s.list.Lists l ∧ l.Nodup
  expire : ∀ ts, s.list.expireTime ts = (deadline ts s.log).getD (-1)
  log : LogRight s.log

/-- Active timers with one time are in the order in which they were armed. -/
def InOrder (s : System T) : Prop :=
  ∀ l, s.list.Active l → l.Pairwise fun a b =>
    s.list.expireTime a = s.list.expireTime b → armedAt a s.log < armedAt b s.log

/-- A call does not arm a timer with a negative time while another one has the time 0. -/
def Orderly (s : System T) : Call T → Prop
  | .mod ts expireTime => expireTime < 0 → ∀ t, t ≠ ts → s.list.expireTime t ≠ 0
  | .anticipate ts expireTime => expireTime < 0 → ∀ t, t ≠ ts → s.list.expireTime t ≠ 0
  | _ => True

end System

/-! ### Deadlines -/

section Deadlines
variable {ts t : T} {log : List (Entry T)} {x : Entry T} {d : Int}

theorem deadline_nonneg (h : deadline ts log = some d) : 0 ≤ d := by
  induction log generalizing d with
  | nil => cases h
  | cons x log ih =>
    rw [deadline] at h
    cases x with
    | deleted t | fired t _ =>
      simp only [owes, ite_none_left_eq_some] at h
      exact ih h.2
    | modified t expireTime =>
      simp only [owes] at h
      split at h
      · cases h
        exact Int.le_max_right ..
      · exact ih h
    | anticipated t expireTime =>
      simp only [owes] at h
      split at h
      · cases hd : deadline ts log with
        | none =>
          rw [hd] at h
          cases h
          exact Int.le_max_right ..
        | some d' =>
          have := ih hd
          rw [hd] at h
          cases h
          simp only [elim_some]
          omega
      · exact ih h
    | returned _ _ => exact ih h

theorem Entry.owes_none (h : x.arms ts none = false) : x.owes ts none = none := by
  cases x <;> simp_all [owes, arms]

theorem armedAt_lt (h : deadline ts log = some d) : armedAt ts log < log.length := by
  induction log generalizing d with
  | nil => cases h
  | cons x log ih =>
    rw [armedAt, length_cons]
    split
    · exact Nat.lt_succ_self _
    next harms =>
      cases hd : deadline ts log with
      | none =>
        rw [deadline, hd] at h
        rw [hd] at harms
        rw [owes_none (by simpa using harms)] at h
        cases h
      | some d' => exact Nat.lt_succ_of_lt (ih hd)

end Deadlines

/-! ### Soundness -/

namespace System
variable {s s' : System T} {c : Call T} {l : List T} {list : TimerList T} {ts : T} {x : Entry T}

variable (runs : List Run) {expireTime : Int}

section
variable (h : s.Sound)
include h

theorem Sound.deadline_eq (hts : s.list.expireTime ts ≠ -1) : deadline ts s.log = some (s.list.expireTime ts) := by
  have hexp := h.expire ts
  cases hd : deadline ts s.log with
  | none =>
    rw [hd] at hexp
    exact absurd hexp hts
  | some d => rw [hexp, hd, getD_some]

theorem Sound.entry {e : Int} (hlist : list.Lists l) (hexpire : list.expireTime = update s.list.expireTime ts e)
    (howes : (x.owes ts (deadline ts s.log)).getD (-1) = e) (hother : ∀ t, t ≠ ts → ∀ d, x.owes t d = d)
    (hright : x.Right s.log) : Sound ⟨list, runs, x :: s.log⟩ where
  list := ⟨_, hlist, hlist.active.nodup⟩
  expire := by
    intro t
    by_cases ht : t = ts
    · rw [ht, hexpire, update_self, deadline, howes]
    · simp [hexpire, deadline, hother t ht, ht, h.expire]
  log := ⟨hright, h.log⟩

theorem Sound.armed (harmed : s.list.Armed list l ts expireTime)
    (howes : x.owes ts (deadline ts s.log) = some (max expireTime 0)) (hother : ∀ t, t ≠ ts → ∀ d, x.owes t d = d)
    (hright : x.Right s.log) : Sound ⟨list, runs, x :: s.log⟩ := by
  obtain ⟨l₁, l₂, -, -, -, hlist, hexpire⟩ := harmed
  exact h.entry _ hlist hexpire (by rw [howes, getD_some]) hother hright

theorem Sound.same (howes : ∀ t, x.owes t (deadline t s.log) = deadline t s.log)
    (hright : x.Right s.log) : Sound ⟨s.list, runs, x :: s.log⟩ where
  list := h.list
  expire := by
    intro t
    rw [h.expire, deadline, howes]
  log := ⟨hright, h.log⟩

end

/-- What a call does to a system whose list holds the timers `l`: the timer is taken off the list, it is
armed, or the list is as it was. -/
inductive Effect (s : System T) (l : List T) : Call T → System T → Prop where
  | deleted {ts : T} {list : TimerList T} (hlist : list.Lists (l.erase ts))
      (hexpire : list.expireTime = update s.list.expireTime ts (-1)) :
      Effect s l (.del ts) ⟨list, s.runs, .deleted ts :: s.log⟩
  | modified {ts : T} {e : Int} {list : TimerList T} (harmed : s.list.Armed list l ts e) :
      Effect s l (.mod ts e) ⟨list, s.runs, .modified ts e :: s.log⟩
  | advanced {ts : T} {e : Int} {list : TimerList T} (hlater : ∀ d, deadline ts s.log = some d → e < d)
      (harmed : s.list.Armed list l ts e) :
      Effect s l (.anticipate ts e) ⟨list, s.runs, .anticipated ts e :: s.log⟩
  | left {ts : T} {e d : Int} (hd : deadline ts s.log = some d) (hle : d ≤ e) :
      Effect s l (.anticipate ts e) ⟨s.list, s.runs, .anticipated ts e :: s.log⟩
  | started {enabled : Bool} {now : Int} (runs : List Run) : Effect s l (.start enabled now) ⟨s.list, runs, s.log⟩
  | fired {i : Nat} {ts : T} {now d : Int} {list : TimerList T} (runs : List Run)
      (hlist : list.Lists (l.erase ts)) (hexpire : list.expireTime = update s.list.expireTime ts (-1))
      (hd : deadline ts s.log = some d) (hle : d ≤ now) : Effect s l (.pass i) ⟨list, runs, .fired ts now :: s.log⟩
  | returned {i : Nat} {now : Int} {progress : Bool} (runs : List Run)
      (hnone : ∀ ts d, deadline ts s.log = some d → now < d) :
      Effect s l (.pass i) ⟨s.list, runs, .returned now progress :: s.log⟩

theorem Sound.effect (h : s.Sound) (hl : s.list.Lists l) (hstep : s.Step c s') : Effect s l c s' := by
  obtain ⟨n, hn⟩ := hstep
  have hexec := hn (max n (l.length + 1)) (Nat.le_max_left ..)
  have hfuel : l.length < max n (l.length + 1) := lt_of_lt_of_le (Nat.lt_succ_self _) (Nat.le_max_right ..)
  have hpending : ∀ {t d}, deadline t s.log = some d → s.list.expireTime t = d ∧ t ∈ l := by
    intro t d hd
    have hexp := h.expire t
    rw [hd, getD_some] at hexp
    have hnonneg := deadline_nonneg hd
    exact ⟨hexp, (hl.mem t).2 (by omega)⟩
  cases c with
  | del ts =>
    obtain ⟨list, hdel, hlist, hexpire⟩ := timerDelLocked_spec hl ts
    rw [exec, timerDel, hdel _ hfuel] at hexec
    cases hexec
    exact .deleted hlist hexpire
  | mod ts expireTime =>
    obtain ⟨list, rearm, hmod, harmed⟩ := timerModNs_spec hl ts expireTime
    rw [exec, hmod _ hfuel] at hexec
    cases hexec
    exact .modified harmed
  | anticipate ts expireTime =>
    obtain ⟨hactive, hle, hmod⟩ | ⟨hlater, list, rearm, hmod, harmed⟩ :=
      timerModAnticipateNs_spec hl ts expireTime
    · rw [exec, hmod] at hexec
      cases hexec
      exact .left (h.deadline_eq hactive) hle
    rw [exec, hmod _ hfuel] at hexec
    cases hexec
    refine .advanced ?_ harmed
    intro d hd
    obtain ⟨hexp, hin⟩ := hpending hd
    exact hexp ▸ hlater ((hl.mem ts).1 hin)
  | start enabled now =>
    cases hexec
    exact .started _
  | pass i =>
    rw [exec, map_eq_some_iff] at hexec
    obtain ⟨run, -, hpass⟩ := hexec
    rw [pass] at hpass
    split at hpass
    next ts list htake =>
      cases hpass
      obtain ⟨rest, rfl, hle, hlist, hexpire⟩ := takeExpired_some hl htake
      have hactive : s.list.expireTime ts ≠ -1 := (hl.mem ts).1 (mem_cons_self ..)
      refine .fired _ ?_ hexpire (h.deadline_eq hactive) hle
      rwa [erase_cons_head]
    next htake =>
      cases hpass
      refine .returned _ ?_
      intro ts d hd
      obtain ⟨rfl, hin⟩ := hpending hd
      exact takeExpired_none hl htake ts hin

theorem Sound.step (h : s.Sound) (hstep : s.Step c s') : s'.Sound := by
  obtain ⟨l, hl, hnodup⟩ := h.list
  cases h.effect hl hstep with
  | deleted hlist hexpire =>
    exact h.entry _ hlist hexpire (by simp [owes]) (fun t ht d => if_neg ht.symm) trivial
  | modified harmed => exact h.armed _ harmed (if_pos rfl) (fun t ht d => if_neg ht.symm) trivial
  | @advanced ts e list hlater harmed =>
    refine h.armed _ harmed ?_ (fun t ht d => if_neg ht.symm) trivial
    rw [owes, if_pos rfl]
    cases hd : deadline ts s.log with
    | none => rfl
    | some d =>
      have hlt := hlater d hd
      have hnonneg := deadline_nonneg hd
      rw [elim_some, Int.min_eq_left (by omega)]
  | left hd hle =>
    refine h.same _ ?_ trivial
    intro t
    rw [owes]
    split
    next ht =>
      subst ht
      rw [hd, elim_some, Int.min_eq_right (by omega)]
    · rfl
  | started runs => exact ⟨h.list, h.expire, h.log⟩
  | fired runs hlist hexpire hd hle =>
    exact h.entry _ hlist hexpire (by simp [owes]) (fun t ht d => if_neg ht.symm) ⟨_, hd, hle⟩
  | returned runs hnone => exact h.same _ (fun t => rfl) hnone

theorem Sound.reach (h : Reach Init Step s) : s.Sound := by
  refine h.invariant ?_ fun _ _ _ hs hstep => hs.step hstep
  intro s hinit
  obtain ⟨hlink, hexpire, -, hlog⟩ := hinit
  refine ⟨⟨[], ⟨hlink, ?_, nofun, List.Pairwise.nil⟩, nodup_nil⟩, ?_, ?_⟩
  · intro ts
    simp [hexpire]
  · intro ts
    rw [hexpire, hlog]
    rfl
  · rw [hlog]
    trivial

/-! ### The order of arming -/

section
variable (h : s.InOrder)
include h

theorem InOrder.erased (hl : s.list.Lists l) (hlist : list.Lists (l.erase ts))
    (hexpire : list.expireTime = update s.list.expireTime ts (-1)) (harms : ∀ t d, x.arms t d = false) :
    InOrder ⟨list, runs, x :: s.log⟩ := by
  intro l' hl'
  obtain rfl := hlist.active.unique hl'
  refine ((h l hl.active).sublist erase_sublist).imp_of_mem ?_
  intro a b ha hb hlt heq
  have hne : ∀ t ∈ l.erase ts, t ≠ ts := fun t ht => (hl.active.nodup.mem_erase_iff.1 ht).1
  rw [hexpire, update_of_ne (hne a ha), update_of_ne (hne b hb)] at heq
  simpa [armedAt, harms] using hlt heq

theorem InOrder.same (harms : ∀ t, x.arms t (deadline t s.log) = false) : InOrder ⟨s.list, runs, x :: s.log⟩ := by
  intro l hl
  refine (h l hl).imp ?_
  intro a b hlt heq
  simpa [armedAt, harms] using hlt heq

theorem InOrder.armed (hsound : s.Sound) (runs : List Run) (hl : s.list.Lists l)
    (harmed : s.list.Armed list l ts expireTime) (horderly : expireTime < 0 → ∀ t, t ≠ ts → s.list.expireTime t ≠ 0)
    (harms : x.arms ts (deadline ts s.log) = true) (hother : ∀ t, t ≠ ts → ∀ d, x.arms t d = false) :
    InOrder ⟨list, runs, x :: s.log⟩ := by
  obtain ⟨l₁, l₂, hsplit, -, hbehind, hlist, hexpire⟩ := harmed
  intro l' hl'
  obtain rfl := hlist.active.unique hl'
  have hrest : ∀ t ∈ l₁ ++ l₂, t ≠ ts ∧ t ∈ l := by
    intro t ht
    rw [← hsplit] at ht
    exact hl.active.nodup.mem_erase_iff.1 ht
  have htime : ∀ t, t ≠ ts → list.expireTime t = s.list.expireTime t := by
    intro t ht
    rw [hexpire, update_of_ne ht]
  have hself : armedAt ts (x :: s.log) = s.log.length := by rw [armedAt, if_pos harms]
  have hkept : ∀ t, t ≠ ts → armedAt t (x :: s.log) = armedAt t s.log := by
    intro t ht
    simp [armedAt, hother t ht]
  have hold : (l₁ ++ l₂).Pairwise fun a b =>
      list.expireTime a = list.expireTime b → armedAt a (x :: s.log) < armedAt b (x :: s.log) := by
    rw [← hsplit]
    refine ((h l hl.active).sublist erase_sublist).imp_of_mem ?_
    intro a b ha hb hlt heq
    rw [hsplit] at ha hb
    rw [htime a (hrest a ha).1, htime b (hrest b hb).1] at heq
    rw [hkept a (hrest a ha).1, hkept b (hrest b hb).1]
    exact hlt heq
  obtain ⟨hold₁, hold₂, hacross⟩ := pairwise_append.1 hold
  rw [pairwise_append, pairwise_cons]
  refine ⟨hold₁, ⟨?_, hold₂⟩, ?_⟩
  · intro b hb heq
    obtain ⟨hne, -⟩ := hrest b (mem_append_right _ hb)
    have hlt := hbehind b hb
    rw [htime b hne, hexpire, update_self] at heq
    exact absurd (by omega) (horderly (by omega) b hne)
  · intro a ha b hb heq
    obtain rfl | hb := mem_cons.1 hb
    · obtain ⟨hne, hin⟩ := hrest a (mem_append_left _ ha)
      rw [hself, hkept a hne]
      exact armedAt_lt (hsound.deadline_eq ((hl.mem a).1 hin))
    · exact hacross a ha b hb heq

theorem InOrder.step (hsound : s.Sound) (horderly : s.Orderly c) (hstep : s.Step c s') : s'.InOrder := by
  obtain ⟨l, hl, hnodup⟩ := hsound.list
  cases hsound.effect hl hstep with
  | deleted hlist hexpire | fired runs hlist hexpire hd hle => exact h.erased _ hl hlist hexpire fun _ _ => rfl
  | modified harmed =>
    refine h.armed hsound _ hl harmed horderly (decide_eq_true rfl) ?_
    intro t ht d
    exact decide_eq_false ht.symm
  | @advanced ts e list hlater harmed =>
    refine h.armed hsound _ hl harmed horderly ?_ ?_
    · cases hd : deadline ts s.log with
      | none => simp [arms]
      | some d => simpa [arms] using hlater d hd
    · intro t ht d
      simp [arms, ht.symm]
  | @left ts e d hd hle =>
    refine h.same _ ?_
    intro t
    by_cases ht : ts = t
    · subst ht
      simpa [arms, hd] using hle
    · simp [arms, ht]
  | started runs => exact h
  | returned runs hnone => exact h.same _ fun _ => rfl

end

/-- A run has to go on for a pass of its loop. -/
def Possible (s : System T) : Call T → Prop
  | .pass i => i < s.runs.length
  | _ => True

theorem Sound.returns (h : s.Sound) (c : Call T) (hc : s.Possible c) : ∃ s', s.Step c s' := by
  obtain ⟨l, hl, -⟩ := h.list
  cases c with
  | del ts =>
    obtain ⟨list, hdel, -⟩ := timerDelLocked_spec hl ts
    exact ⟨_, l.length + 1, fun fuel hfuel => by rw [exec, timerDel, hdel fuel hfuel, map_some]⟩
  | mod ts expireTime =>
    obtain ⟨list, rearm, hmod, -⟩ := timerModNs_spec hl ts expireTime
    exact ⟨_, l.length + 1, fun fuel hfuel => by rw [exec, hmod fuel hfuel, map_some]⟩
  | anticipate ts expireTime =>
    obtain ⟨-, -, hmod⟩ | ⟨-, list, rearm, hmod, -⟩ := timerModAnticipateNs_spec hl ts expireTime
    · exact ⟨_, 0, fun fuel _ => by rw [exec, hmod fuel, map_some]⟩
    · exact ⟨_, l.length + 1, fun fuel hfuel => by rw [exec, hmod fuel hfuel, map_some]⟩
  | start enabled now => exact ⟨_, 0, fun _ _ => rfl⟩
  | pass i => exact ⟨_, 0, fun fuel _ => by rw [exec, List.getElem?_eq_getElem hc, map_some]⟩

end System

/-! ### Main result -/

/-- In every run the list is sorted, holds each timer that has a deadline once, callbacks are owed and
not early, none is missed when a run returns, and calls return. If no timer is armed with a negative
time while another one has the time 0, timers with one time are in the order of their arming. -/
theorem timers_in_order {T : Type} [DecidableEq T] :
    (∀ s : System T, Reach System.Init System.Step s → s.Sound ∧ ∀ c, s.Possible c → ∃ s', s.Step c s') ∧
    (∀ s : System T, Reach System.Init (fun s c s' => s.Orderly c ∧ s.Step c s') s → s.InOrder) := by
  refine ⟨?_, ?_⟩
  · intro s hs
    have hsound := System.Sound.reach hs
    exact ⟨hsound, hsound.returns⟩
  · intro s hs
    have hinv : s.Sound ∧ s.InOrder := by
      refine hs.invariant (I := fun s => s.Sound ∧ s.InOrder) ?_ ?_
      · intro s hinit
        refine ⟨System.Sound.reach (.start hinit), ?_⟩
        intro l hl
        have hnil : s.list.Active [] := hinit.1
        obtain rfl := hnil.unique hl
        exact List.Pairwise.nil
      · intro s c s' h hstep
        exact ⟨h.1.step hstep.2, h.2.step h.1 hstep.1 hstep.2⟩
    exact hinv.2

/-- Two timers, neither of them active. -/
def idle : System Bool := ⟨⟨fun _ => none, fun _ => -1⟩, [], []⟩

/-- The first timer is armed for the time 0. -/
def armedZero : System Bool where
  list := {
    link := update (update (fun _ => none) (.next false) none) .activeTimers (some false)
    expireTime := update (update (fun _ => -1) false (-1)) false 0 }
  runs := []
  log := [.modified false 0]

def armedNegative : System Bool where
  list := {
    link := update (update armedZero.list.link (.next true) (some false)) .activeTimers (some true)
    expireTime := update (update armedZero.list.expireTime true (-1)) true 0 }
  runs := []
  log := [.modified true (-1), .modified false 0]

theorem idle_init : idle.Init := ⟨rfl, fun _ => rfl, rfl, rfl⟩

theorem step_armedZero : idle.Step (.mod false 0) armedZero := by
  refine ⟨1, ?_⟩
  intro fuel hfuel
  obtain ⟨k, rfl⟩ := Nat.exists_eq_add_of_le' hfuel
  rfl

theorem step_armedNegative : armedZero.Step (.mod true (-1)) armedNegative := by
  refine ⟨2, ?_⟩
  intro fuel hfuel
  obtain ⟨k, rfl⟩ := Nat.exists_eq_add_of_le' hfuel
  rfl

theorem armedZero_inOrder : armedZero.Sound ∧ armedZero.InOrder :=
  ⟨(timers_in_order.1 armedZero (.step (.start idle_init) step_armedZero)).1,
    timers_in_order.2 armedZero (.step (a := .mod false 0) (.start idle_init)
      ⟨fun h => absurd h (by decide), step_armedZero⟩)⟩

/-- Both timers have the time 0, and the one that was armed last comes first. -/
theorem negative_time_overtakes : Reach System.Init System.Step armedNegative ∧ ¬ armedNegative.InOrder := by
  refine ⟨.step (.step (.start idle_init) step_armedZero) step_armedNegative, ?_⟩
  intro horder
  have hpair := horder [true, false] ⟨rfl, rfl, rfl⟩
  exact absurd (rel_of_pairwise_cons hpair (mem_singleton.2 rfl) rfl) (by decide)

end GemDroid.Timer
