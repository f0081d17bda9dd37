import GemDroid.Lib.LinkPath
import Mathlib.Data.List.TakeWhile

/-! The list of active timers (`qemu-timer.c`).

`active_timers` is linked through the timers themselves and kept in the order of their
`expire_time`; a timer that is not on it has `expire_time` -1. `timer_mod_ns_locked` looks for the
place of a timer with the time it is given, and stores that time or 0, whichever is later. -/
namespace GemDroid.Timer
open Lib.LinkPath Function List Option

/-! ### The model -/

/-- Where a pointer to a timer is: `active_timers`, or the `next` of a timer. -/
inductive Cell (T : Type) where
  | activeTimers
  | next (ts : T)
  deriving DecidableEq, Repr

structure TimerList (T : Type) where
  link : Cell T → Option T
  expireTime : T → Int

namespace TimerList
variable {T : Type} [DecidableEq T]

def timerExpiredNs (s : TimerList T) (timerHead : Option T) (currentTime : Int) : Bool :=
  match timerHead with
  | none => false
  | some t => s.expireTime t ≤ currentTime

def timerDelLocked (fuel : Nat) (s : TimerList T) (ts : T) : Option (TimerList T) :=
  let s := { s with expireTime := update s.expireTime ts (-1) }
  (walk s.link .next (· != ts) fuel .activeTimers).map fun pt =>
    match s.link pt with
    | none => s
    | some t => { s with link := update s.link pt (s.link (.next t)) }

def timerModNsLocked (fuel : Nat) (s : TimerList T) (ts : T) (expireTime : Int) : Option (TimerList T × Bool) :=
  (walk s.link .next (fun t => s.timerExpiredNs (some t) expireTime) fuel .activeTimers).map fun pt =>
    ({ link := update (update s.link (.next ts) (s.link pt)) pt (some ts)
       expireTime := update s.expireTime ts (max expireTime 0) },
     pt == .activeTimers)

def timerDel (fuel : Nat) (s : TimerList T) (ts : T) : Option (TimerList T) := s.timerDelLocked fuel ts

def timerModNs (fuel : Nat) (s : TimerList T) (ts : T) (expireTime : Int) : Option (TimerList T × Bool) :=
  (s.timerDelLocked fuel ts).bind fun s => s.timerModNsLocked fuel ts expireTime

def timerModAnticipateNs (fuel : Nat) (s : TimerList T) (ts : T) (expireTime : Int) : Option (TimerList T × Bool) :=
  if s.expireTime ts = -1 then s.timerModNsLocked fuel ts expireTime
  else if s.expireTime ts > expireTime then s.timerModNs fuel ts expireTime
  else some (s, false)

def takeExpired (s : TimerList T) (currentTime : Int) : Option (T × TimerList T) :=
  match s.link .activeTimers with
  | none => none
  | some ts =>
    if s.timerExpiredNs (some ts) currentTime then
      some (ts, {
        link := update (update s.link .activeTimers (s.link (.next ts))) (.next ts) none
        expireTime := update s.expireTime ts (-1) })
    else none

/-! ### The list -/

def Active (s : TimerList T) (l : List T) : Prop := Path s.link .next .activeTimers l none

/-- The active timers are those whose `expire_time` is not -1, and theirs is not negative. -/
structure Lists (s : TimerList T) (l : List T) : Prop where
  active : s.Active l
  mem : ∀ ts, ts ∈ l ↔ s.expireTime ts ≠ -1
  nonneg : ∀ ts ∈ l, 0 ≤ s.expireTime ts
  sorted : l.Pairwise fun a b => s.expireTime a ≤ s.expireTime b

omit [DecidableEq T] in
theorem Active.nodup {s : TimerList T} {l : List T} (h : s.Active l) : l.Nodup :=
  path_nodup h fun _ _ => some_ne_none _ |>.symm

omit [DecidableEq T] in
theorem Active.unique {s : TimerList T} {l l' : List T} (h : s.Active l) (h' : s.Active l') : l = l' :=
  path_unique h h' (fun _ _ => nofun) fun _ _ => nofun

omit [DecidableEq T] in
theorem next_injective : Function.Injective (Cell.next : T → Cell T) := fun _ _ h => Cell.next.inj h

variable {s : TimerList T} {l l₁ l₂ : List T} {ts : T} {expireTime currentTime : Int} {s' : TimerList T}

theorem Lists.erased (h : s.Lists l) (hactive : s'.Active (l.erase ts))
    (hexpire : s'.expireTime = update s.expireTime ts (-1)) : s'.Lists (l.erase ts) := by
  have hnodup := h.active.nodup
  have hsame : ∀ a ∈ l.erase ts, s'.expireTime a = s.expireTime a := by
    intro a ha
    rw [hexpire, update_of_ne (hnodup.mem_erase_iff.1 ha).1]
  refine ⟨hactive, ?_, ?_, ?_⟩
  · intro a
    rw [hnodup.mem_erase_iff, h.mem, hexpire]
    by_cases ha : a = ts
    · simp [ha]
    · simp [ha]
  · intro a ha
    rw [hsame a ha]
    exact h.nonneg a (mem_of_mem_erase ha)
  · refine (h.sorted.sublist erase_sublist).imp_of_mem ?_
    intro a b ha hb hle
    rwa [hsame a ha, hsame b hb]

theorem Lists.inserted (h : s.Lists (l₁ ++ l₂)) (hts : ts ∉ l₁ ++ l₂)
    (hactive : s'.Active (l₁ ++ ts :: l₂)) (hexpire : s'.expireTime = update s.expireTime ts (max expireTime 0))
    (hbefore : ∀ a ∈ l₁, s.expireTime a ≤ expireTime) (hbehind : ∀ b ∈ l₂, expireTime < s.expireTime b) :
    s'.Lists (l₁ ++ ts :: l₂) := by
  have hself : s'.expireTime ts = max expireTime 0 := by rw [hexpire, update_self]
  have hother : ∀ a, a ≠ ts → s'.expireTime a = s.expireTime a := by
    intro a ha
    rw [hexpire, update_of_ne ha]
  have hsame : ∀ a ∈ l₁ ++ l₂, s'.expireTime a = s.expireTime a := by
    intro a ha
    exact hother a fun heq => hts (heq ▸ ha)
  have hin : ∀ a, a ≠ ts → (a ∈ l₁ ++ ts :: l₂ ↔ a ∈ l₁ ++ l₂) := by
    intro a ha
    simp [ha]
  obtain ⟨hsorted₁, hsorted₂, hacross⟩ := pairwise_append.1 h.sorted
  refine ⟨hactive, ?_, ?_, ?_⟩
  · intro a
    by_cases ha : a = ts
    · have : s'.expireTime a ≠ -1 := by
        rw [ha, hself]
        omega
      simp [ha] at this ⊢
      exact this
    · rw [hin a ha, h.mem, hother a ha]
  · intro a hmem
    by_cases ha : a = ts
    · rw [ha, hself]
      omega
    · rw [hother a ha]
      exact h.nonneg a ((hin a ha).1 hmem)
  · rw [pairwise_append, pairwise_cons]
    refine ⟨hsorted₁.imp_of_mem ?_, ⟨?_, hsorted₂.imp_of_mem ?_⟩, ?_⟩
    · intro a b ha hb hle
      rwa [hsame a (mem_append_left _ ha), hsame b (mem_append_left _ hb)]
    · intro b hb
      have hnonneg := h.nonneg b (mem_append_right _ hb)
      have hlt := hbehind b hb
      rw [hself, hsame b (mem_append_right _ hb)]
      omega
    · intro a b ha hb hle
      rwa [hsame a (mem_append_right _ ha), hsame b (mem_append_right _ hb)]
    · intro a ha b hb
      have hle := hbefore a ha
      rw [hsame a (mem_append_left _ ha)]
      obtain rfl | hb := mem_cons.1 hb
      · rw [hself]
        omega
      · rw [hsame b (mem_append_right _ hb)]
        exact hacross a ha b hb

theorem timerDelLocked_spec (h : s.Lists l) (ts : T) :
    ∃ s', (∀ fuel > l.length, s.timerDelLocked fuel ts = some s') ∧ s'.Lists (l.erase ts) ∧
      s'.expireTime = update s.expireTime ts (-1) := by
  have hnodup := h.active.nodup
  have hstep : ∃ s', (∀ fuel > l.length, s.timerDelLocked fuel ts = some s') ∧ s'.Active (l.erase ts) ∧
      s'.expireTime = update s.expireTime ts (-1) := by
    by_cases hts : ts ∈ l
    · obtain ⟨l₁, l₂, rfl⟩ := append_of_mem hts
      have hnot : ts ∉ l₁ := fun hin => (nodup_append.1 hnodup).2.2 _ hin _ (mem_cons_self ..) rfl
      have hread := ((path_append _ _ _ _).1 h.active).2.1
      have hwalk : ∀ fuel > (l₁ ++ ts :: l₂).length,
          walk s.link .next (· != ts) fuel .activeTimers = some (lastCell .next .activeTimers l₁) := by
        intro fuel hfuel
        apply walk_path h.active
        · intro a ha
          exact bne_iff_ne.2 fun heq => hnot (heq ▸ ha)
        · simp
        · simp at hfuel
          omega
      have hdel := path_unlink h.active hnodup next_injective fun _ _ => nofun
      refine ⟨_, fun fuel hfuel => by rw [timerDelLocked, hwalk fuel hfuel, map_some], ?_, ?_⟩
      · simpa [hread, Active, erase_append_right _ hnot] using hdel
      · simp [hread]
    · have hpath : Path s.link .next .activeTimers (l ++ []) none := by simpa [Active] using h.active
      have hwalk : ∀ fuel > l.length,
          walk s.link .next (· != ts) fuel .activeTimers = some (lastCell .next .activeTimers l) := by
        intro fuel hfuel
        apply walk_path hpath _ nofun hfuel
        intro a ha
        exact bne_iff_ne.2 fun heq => hts (heq ▸ ha)
      have hnull : s.link (lastCell .next .activeTimers l) = none :=
        ((path_append _ _ _ _).1 hpath).2
      refine ⟨_, fun fuel hfuel => by rw [timerDelLocked, hwalk fuel hfuel, map_some], ?_, ?_⟩
      · simpa [hnull, Active, erase_of_not_mem hts] using h.active
      · simp [hnull]
  obtain ⟨s', hdel, hactive, hexpire⟩ := hstep
  exact ⟨s', hdel, h.erased hactive hexpire, hexpire⟩

/-- The active timers in front of the place of a timer: those that expire by then. -/
def before (s : TimerList T) (l : List T) (expireTime : Int) : List T :=
  l.takeWhile fun t => s.timerExpiredNs (some t) expireTime

def behind (s : TimerList T) (l : List T) (expireTime : Int) : List T :=
  l.dropWhile fun t => s.timerExpiredNs (some t) expireTime

omit [DecidableEq T] in
theorem before_append_behind : s.before l expireTime ++ s.behind l expireTime = l := takeWhile_append_dropWhile

omit [DecidableEq T] in
theorem le_of_mem_before {a : T} (ha : a ∈ s.before l expireTime) : s.expireTime a ≤ expireTime := by
  simpa [timerExpiredNs] using mem_takeWhile_imp ha

omit [DecidableEq T] in
theorem lt_of_mem_behind {a : T} (h : s.Lists l) (ha : a ∈ s.behind l expireTime) : expireTime < s.expireTime a := by
  have hsorted := h.sorted.sublist (dropWhile_sublist fun t => s.timerExpiredNs (some t) expireTime)
  rw [behind] at ha
  cases hd : l.dropWhile (fun t => s.timerExpiredNs (some t) expireTime) with
  | nil =>
    rw [hd] at ha
    cases ha
  | cons b rest =>
    have hb : expireTime < s.expireTime b := by
      have hhead := List.head?_dropWhile_not (fun t => s.timerExpiredNs (some t) expireTime) l
      rw [hd] at hhead
      simpa [timerExpiredNs] using hhead
    rw [hd] at ha hsorted
    obtain rfl | hin := mem_cons.1 ha
    · exact hb
    · exact Int.lt_of_lt_of_le hb (rel_of_pairwise_cons hsorted hin)

/-- The timer has been put between the other active ones that expire by then and those that do not. -/
def Armed (s s' : TimerList T) (l : List T) (ts : T) (expireTime : Int) : Prop :=
  ∃ l₁ l₂, l.erase ts = l₁ ++ l₂ ∧ (∀ a ∈ l₁, s.expireTime a ≤ expireTime) ∧ (∀ b ∈ l₂, expireTime < s.expireTime b) ∧
    s'.Lists (l₁ ++ ts :: l₂) ∧ s'.expireTime = update s.expireTime ts (max expireTime 0)

section
variable (h : s.Lists l)
include h

theorem timerModNsLocked_spec (expireTime : Int) (hts : s.expireTime ts = -1) :
    ∃ s' rearm, (∀ fuel > l.length, s.timerModNsLocked fuel ts expireTime = some (s', rearm)) ∧
      s.Armed s' l ts expireTime := by
  have hnot : ts ∉ l := fun hin => (h.mem ts).1 hin hts
  have hsplit : s.before l expireTime ++ s.behind l expireTime = l := before_append_behind
  have hlen : (s.before l expireTime).length ≤ l.length := (takeWhile_sublist _).length_le
  have hpath : Path s.link .next .activeTimers (s.before l expireTime ++ s.behind l expireTime) none :=
    hsplit.symm ▸ h.active
  have hwalk : ∀ fuel > l.length, walk s.link .next (fun t => s.timerExpiredNs (some t) expireTime) fuel .activeTimers =
      some (lastCell .next .activeTimers (s.before l expireTime)) := by
    intro fuel hfuel
    apply walk_path hpath
    · intro a ha
      simpa [timerExpiredNs] using le_of_mem_before ha
    · intro a ha
      simpa [timerExpiredNs] using lt_of_mem_behind h (mem_of_head? ha)
    · omega
  have hactive := path_insert hpath (hsplit.symm ▸ h.active.nodup) next_injective (hsplit.symm ▸ hnot) fun _ => nofun
  refine ⟨_, _, fun fuel hfuel => by rw [timerModNsLocked, hwalk fuel hfuel, map_some],
    s.before l expireTime, s.behind l expireTime, ?_,
    fun a ha => le_of_mem_before ha, fun b hb => lt_of_mem_behind h hb, ?_, rfl⟩
  · rw [erase_of_not_mem hnot, hsplit]
  · exact Lists.inserted (hsplit.symm ▸ h) (hsplit.symm ▸ hnot) hactive rfl (fun a ha => le_of_mem_before ha)
      fun b hb => lt_of_mem_behind h hb

/-- `timer_mod_ns` takes the timer off the list and links it in at its place among the others. -/
theorem timerModNs_spec (ts : T) (expireTime : Int) :
    ∃ s' rearm, (∀ fuel > l.length, s.timerModNs fuel ts expireTime = some (s', rearm)) ∧
      s.Armed s' l ts expireTime := by
  obtain ⟨s₁, hdel, h₁, hexpire⟩ := timerDelLocked_spec h ts
  have hlen : (l.erase ts).length ≤ l.length := erase_sublist.length_le
  have hidle : s₁.expireTime ts = -1 := by rw [hexpire, update_self]
  have hnot : ts ∉ l.erase ts := fun hin => (h₁.mem ts).1 hin hidle
  obtain ⟨s', rearm, hmod, l₁, l₂, hsplit, hbefore, hbehind, h', hexpire'⟩ :=
    timerModNsLocked_spec h₁ expireTime hidle
  rw [erase_of_not_mem hnot] at hsplit
  have hsame : ∀ a ∈ l₁ ++ l₂, s₁.expireTime a = s.expireTime a := by
    intro a ha
    have hne : a ≠ ts := by
      intro heq
      subst heq
      exact hnot (hsplit ▸ ha)
    rw [hexpire, update_of_ne hne]
  refine ⟨s', rearm, ?_, l₁, l₂, hsplit, ?_, ?_, h', ?_⟩
  · intro fuel hfuel
    rw [timerModNs, hdel fuel hfuel, bind_some, hmod fuel (lt_of_le_of_lt hlen hfuel)]
  · intro a ha
    rw [← hsame a (mem_append_left _ ha)]
    exact hbefore a ha
  · intro b hb
    rw [← hsame b (mem_append_right _ hb)]
    exact hbehind b hb
  · rw [hexpire', hexpire, update_idem]

/-- `timer_mod_anticipate_ns` arms a timer unless it is active and expires by then. -/
theorem timerModAnticipateNs_spec (ts : T) (expireTime : Int) : (s.expireTime ts ≠ -1 ∧ s.expireTime ts ≤ expireTime ∧
      ∀ fuel, s.timerModAnticipateNs fuel ts expireTime = some (s, false)) ∨
    ((s.expireTime ts ≠ -1 → expireTime < s.expireTime ts) ∧
      ∃ s' rearm, (∀ fuel > l.length, s.timerModAnticipateNs fuel ts expireTime = some (s', rearm)) ∧
        s.Armed s' l ts expireTime) := by
  simp only [timerModAnticipateNs]
  by_cases hidle : s.expireTime ts = -1
  · simp only [if_pos hidle]
    exact Or.inr ⟨fun hne => absurd hidle hne, timerModNsLocked_spec h expireTime hidle⟩
  simp only [if_neg hidle]
  by_cases hlater : s.expireTime ts > expireTime
  · simp only [if_pos hlater]
    exact Or.inr ⟨fun _ => hlater, timerModNs_spec h ts expireTime⟩
  · simp only [if_neg hlater]
    exact Or.inl ⟨hidle, by omega, fun _ => trivial⟩

theorem takeExpired_none (hnone : s.takeExpired currentTime = none) : ∀ ts ∈ l, currentTime < s.expireTime ts := by
  cases l with
  | nil => exact fun _ hin => absurd hin not_mem_nil
  | cons b rest =>
    have hread : s.link .activeTimers = some b := h.active.1
    have hb : currentTime < s.expireTime b := by
      simpa [takeExpired, hread, timerExpiredNs] using hnone
    intro a ha
    obtain rfl | hin := mem_cons.1 ha
    · exact hb
    · exact Int.lt_of_lt_of_le hb (rel_of_pairwise_cons h.sorted hin)

theorem takeExpired_some (hsome : s.takeExpired currentTime = some (ts, s')) :
    ∃ rest, l = ts :: rest ∧ s.expireTime ts ≤ currentTime ∧ s'.Lists rest ∧
      s'.expireTime = update s.expireTime ts (-1) := by
  cases l with
  | nil =>
    have hread : s.link .activeTimers = none := h.active
    simp [takeExpired, hread] at hsome
  | cons b rest =>
    obtain ⟨hread, htail⟩ := h.active
    simp only [takeExpired, hread] at hsome
    split at hsome
    next hexp =>
      cases hsome
      have hnodup := nodup_cons.1 h.active.nodup
      have hpath : Path s.link .next .activeTimers ([] ++ ts :: rest) none := h.active
      have hunlink := path_unlink hpath h.active.nodup next_injective fun _ _ => nofun
      have hactive : Path (update (update s.link .activeTimers (s.link (.next ts))) (.next ts) none)
          .next .activeTimers rest none := by
        refine (path_update (show Cell.next ts ≠ .activeTimers from nofun) ?_).2 hunlink
        intro a ha heq
        exact hnodup.1 (Cell.next.inj heq ▸ ha)
      have hrest : (ts :: rest).erase ts = rest := erase_cons_head ..
      exact ⟨rest, rfl, by simpa [timerExpiredNs] using hexp, hrest ▸ h.erased (hrest.symm ▸ hactive) rfl, rfl⟩
    · cases hsome

end

end TimerList

end GemDroid.Timer
