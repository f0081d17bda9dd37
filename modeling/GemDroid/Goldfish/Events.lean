import GemDroid.Lib.Reach
import GemDroid.Lib.Ring
import Mathlib.Data.BitVec

/-! The events device (`hw/android/goldfish/events_device.c`).

Input events wait in a ring of words, three for each, and the guest reads one word at
a time. The ring is empty if `first` and `last` are equal, so it holds one word less
than it has cells, but an event is accepted up to the last cell. -/
namespace GemDroid.Goldfish.Events
open Lib List

/-! ### The model -/

def maxEvents : Nat := 256 * 4

def regRead : Nat := 0x00
def regSetPage : Nat := 0x00
def regLen : Nat := 0x04
def regData : Nat := 0x08

def evAbs : Nat := 0x03
def pageAbsdata : Nat := 0x20000 ||| evAbs

inductive DriverState where
  | init
  | buffered
  | live
deriving DecidableEq, Repr

structure EventsState where
  irq : Bool
  page : Nat
  events : Nat → BitVec 32
  first : Nat
  last : Nat
  state : DriverState

variable {s' : EventsState}

def enqueued (s : EventsState) : Int :=
  let enqueued : Int := s.last - s.first
  if enqueued < 0 then enqueued + maxEvents else enqueued

def fullQueue (s : EventsState) : Bool := decide (enqueued s + 3 > maxEvents)

def put (s : EventsState) (word : BitVec 32) : EventsState :=
  { s with events := Function.update s.events s.last word, last := (s.last + 1) &&& (maxEvents - 1) }

def notify (s : EventsState) : EventsState :=
  if s.first = s.last then
    if s.state = .live then { s with irq := true } else { s with state := .buffered }
  else s

def enqueueEvent (s : EventsState) (type code value : BitVec 32) : EventsState :=
  if fullQueue s then s else put (put (put (notify s) type) code) value

def dequeueEvent (targetI386 : Bool) (s : EventsState) : BitVec 32 × EventsState :=
  if s.first = s.last then (0, s)
  else
    let n := s.events s.first
    let s := { s with first := (s.first + 1) &&& (maxEvents - 1) }
    if s.first = s.last then (n, { s with irq := false })
    else if targetI386 ∧ ((s.first + 2) &&& (maxEvents - 1) < s.last ∨ s.first &&& (maxEvents - 1) > s.last) then
      (n, { s with irq := true })
    else (n, s)

/-- What the guest reads of the pages that describe the device. -/
structure Pages where
  getPageLen : Nat → BitVec 32
  getPageData : Nat → Nat → BitVec 32

/-- The first read of the length of the last page tells that the driver is ready. -/
def becomeLive (s : EventsState) (offset : Nat) : EventsState :=
  if offset = regLen ∧ s.page = pageAbsdata then
    { s with irq := s.irq || decide (s.state = .buffered), state := .live }
  else s

def eventsRead (targetI386 : Bool) (pages : Pages) (s : EventsState) (offset : Nat) : BitVec 32 × EventsState :=
  let s := becomeLive s offset
  if offset = regRead then dequeueEvent targetI386 s
  else if offset = regLen then (pages.getPageLen s.page, s)
  else if offset ≥ regData then (pages.getPageData s.page (offset - regData), s)
  else (0, s)

def eventsWrite (s : EventsState) (offset val : Nat) : EventsState :=
  if offset = regSetPage then { s with page := val } else s

/-! ### Runs -/

/-- The device in a run: the words of the events that were accepted and those that were
read, and how many words were free whenever an event was lost. -/
structure Traced where
  dev : EventsState
  accepted : List (BitVec 32)
  dequeued : List (BitVec 32)
  drops : List Nat

inductive Act where
  | enqueue (type code value : BitVec 32)
  | read (offset : Nat)
  | write (offset val : Nat)

/-- The words that are not taken by accepted ones the guest has yet to read. -/
def free (s : Traced) : Nat := maxEvents - (s.accepted.length - s.dequeued.length)

def step (targetI386 : Bool) (pages : Pages) (s : Traced) : Act → Traced
  | .enqueue type code value =>
    let dev := enqueueEvent s.dev type code value
    if fullQueue s.dev then { s with dev := dev, drops := s.drops ++ [free s] }
    else { s with dev := dev, accepted := s.accepted ++ [type, code, value] }
  | .read offset =>
    let (word, dev) := eventsRead targetI386 pages s.dev offset
    if offset = regRead ∧ s.dev.first ≠ s.dev.last then { s with dev := dev, dequeued := s.dequeued ++ [word] }
    else { s with dev := dev }
  | .write offset val => { s with dev := eventsWrite s.dev offset val }

def reset : EventsState := ⟨false, 0, fun _ => 0, 0, 0, .init⟩

def start : Traced := ⟨reset, [], [], []⟩

def count (s : EventsState) : Nat := (s.last + maxEvents - s.first) % maxEvents

def contents (s : EventsState) : List (BitVec 32) := ring maxEvents s.events s.first (count s)

/-- The words read and those in the ring are the words accepted, and events were lost
only for want of three free words. -/
def Right (s : Traced) : Prop :=
  s.dequeued ++ contents s.dev = s.accepted ∧ ∀ free ∈ s.drops, free < 3

/-- No event comes while exactly 1021 words are in the ring. -/
def Meets (s : Traced) : Act → Prop
  | .enqueue _ _ _ => count s.dev ≠ 1021
  | _ => True

/-! ### The ring -/

structure InRing (s : EventsState) : Prop where
  first : s.first < maxEvents
  last : s.last < maxEvents

theorem and_mask (n : Nat) : n &&& (maxEvents - 1) = n % maxEvents :=
  Nat.and_two_pow_sub_one_eq_mod n 10

section Ring
variable {s : EventsState}

section
variable (h : InRing s)
include h

theorem InRing.last_eq : s.last = (s.first + count s) % maxEvents := by
  have hfirst := h.first
  have hlast := h.last
  simp only [count, maxEvents] at *
  omega

theorem InRing.empty_iff : s.first = s.last ↔ count s = 0 := by
  have hfirst := h.first
  have hlast := h.last
  simp only [count, maxEvents] at *
  omega

theorem InRing.enqueued_eq : enqueued s = count s := by
  have hfirst := h.first
  have hlast := h.last
  simp only [enqueued, count, maxEvents] at *
  split <;> omega

theorem InRing.fullQueue_iff : fullQueue s = true ↔ 1022 ≤ count s := by
  rw [fullQueue, decide_eq_true_iff, h.enqueued_eq, maxEvents]
  omega

theorem InRing.put (word : BitVec 32) : InRing (put s word) where
  first := h.first
  last := by
    rw [Events.put, and_mask]
    exact Nat.mod_lt _ (by decide)

theorem InRing.count_put (word : BitVec 32) : count (Events.put s word) = (count s + 1) % maxEvents := by
  have hfirst := h.first
  simp only [count, Events.put, and_mask]
  rw [maxEvents] at *
  omega

theorem InRing.contents_put (hcount : count s < 1023) (word : BitVec 32) :
    contents (Events.put s word) = contents s ++ [word] := by
  rw [contents, h.count_put, Nat.mod_eq_of_lt (by rw [maxEvents]; omega), contents,
    ← ring_push (show count s < maxEvents by rw [maxEvents]; omega), ← h.last_eq]
  rfl

end

theorem notify_ring (s : EventsState) :
    (notify s).first = s.first ∧ (notify s).last = s.last ∧ (notify s).events = s.events := by
  rw [notify]
  split
  · split <;> exact ⟨rfl, rfl, rfl⟩
  · exact ⟨rfl, rfl, rfl⟩

theorem same_contents (hfirst : s'.first = s.first) (hlast : s'.last = s.last)
    (hevents : s'.events = s.events) : contents s' = contents s ∧ count s' = count s := by
  rw [contents, contents, count, count, hfirst, hlast, hevents]
  exact ⟨rfl, rfl⟩

section
variable (h : InRing s)
include h

theorem InRing.congr (hfirst : s'.first = s.first)
    (hlast : s'.last = s.last) : InRing s' := ⟨hfirst ▸ h.first, hlast ▸ h.last⟩

theorem InRing.notify : InRing (notify s) :=
  h.congr (notify_ring s).1 (notify_ring s).2.1

theorem InRing.count_put3 (a b c : BitVec 32) :
    count (Events.put (Events.put (Events.put s a) b) c) = (count s + 3) % maxEvents := by
  rw [((h.put a).put b).count_put, (h.put a).count_put, h.count_put, maxEvents]
  omega

theorem InRing.contents_put3 (hcount : count s < 1021) (a b c : BitVec 32) :
    contents (Events.put (Events.put (Events.put s a) b) c) = contents s ++ [a, b, c] := by
  have h1 : count (Events.put s a) = count s + 1 := by
    rw [h.count_put, maxEvents]
    omega
  have h2 : count (Events.put (Events.put s a) b) = count s + 2 := by
    rw [(h.put a).count_put, h1, maxEvents]
    omega
  rw [((h.put a).put b).contents_put (by omega), (h.put a).contents_put (by omega), h.contents_put (by omega)]
  simp

theorem InRing.dequeue (targetI386 : Bool) (hne : s.first ≠ s.last) : InRing (dequeueEvent targetI386 s).2 ∧
      (dequeueEvent targetI386 s).1 :: contents (dequeueEvent targetI386 s).2 = contents s := by
  have hring : ∀ s' : EventsState, s'.first = (s.first + 1) % maxEvents → s'.last = s.last →
      s'.events = s.events → InRing s' ∧ s.events s.first :: contents s' = contents s := by
    intro s' hfirst hlast hevents
    have hf := h.first
    have hl := h.last
    have hcount : count s = count s' + 1 := by
      simp only [count, hfirst, hlast, maxEvents] at *
      omega
    refine ⟨⟨by rw [hfirst]; exact Nat.mod_lt _ (by decide), by rw [hlast]; exact hl⟩, ?_⟩
    rw [contents, contents, hcount, ring_succ, Nat.mod_eq_of_lt hf, hfirst, hevents]
  simp only [dequeueEvent, if_neg hne]
  split
  · exact hring _ (and_mask _) rfl rfl
  · split
    all_goals exact hring _ (and_mask _) rfl rfl

end

theorem becomeLive_ring (s : EventsState) (offset : Nat) : (becomeLive s offset).first = s.first ∧
    (becomeLive s offset).last = s.last ∧ (becomeLive s offset).events = s.events := by
  rw [becomeLive]
  split <;> exact ⟨rfl, rfl, rfl⟩

end Ring

/-! ### The steps -/

variable {s : Traced} {targetI386 : Bool} {pages : Pages}

theorem step_dev {P : EventsState → Prop} {a : Act} (h : P s.dev) (hpage : ∀ val, P { s.dev with page := val })
    (henqueue : ∀ type code value, a = .enqueue type code value → P (enqueueEvent s.dev type code value))
    (hlive : ∀ offset, a = .read offset → P (becomeLive s.dev offset))
    (hdequeue : ∀ s, P s → P (dequeueEvent targetI386 s).2) : P (step targetI386 pages s a).dev := by
  cases a with
  | enqueue type code value =>
    simp only [step]
    split <;> exact henqueue type code value rfl
  | read offset =>
    have hdev : P (eventsRead targetI386 pages s.dev offset).2 := by
      simp only [eventsRead]
      split_ifs
      · exact hdequeue _ (hlive offset rfl)
      all_goals exact hlive offset rfl
    simp only [step]
    split <;> exact hdev
  | write offset val =>
    simp only [step, eventsWrite]
    split
    · exact hpage val
    · exact h

theorem step_inRing (targetI386 : Bool) (pages : Pages) (h : InRing s.dev) (a : Act) :
    InRing (step targetI386 pages s a).dev := by
  apply step_dev h (fun _ => h.congr rfl rfl)
  · intro type code value _
    rw [enqueueEvent]
    split
    · exact h
    · exact ((h.notify.put type).put code).put value
  · intro offset _
    obtain ⟨hfirst, hlast, -⟩ := becomeLive_ring s.dev offset
    exact h.congr hfirst hlast
  · intro s h
    by_cases hne : s.first = s.last
    · rw [dequeueEvent, if_pos hne]
      exact h
    · exact (h.dequeue targetI386 hne).1

theorem Right.lengths (h : Right s) : s.accepted.length = s.dequeued.length + count s.dev := by
  rw [← h.1, length_append, contents, length_ring]

theorem Right.of_same {s' : Traced} (h : Right s) (hcontents : contents s'.dev = contents s.dev)
    (haccepted : s'.accepted = s.accepted) (hdequeued : s'.dequeued = s.dequeued) (hdrops : s'.drops = s.drops) :
    Right s' := by
  rw [Right, hcontents, haccepted, hdequeued, hdrops]
  exact h

theorem enqueue_right_iff (hring : InRing s.dev) (h : Right s) (type code value : BitVec 32) :
    Right (step targetI386 pages s (.enqueue type code value)) ↔ count s.dev ≠ 1021 := by
  by_cases hfull : fullQueue s.dev = true
  · have hcount := hring.fullQueue_iff.mp hfull
    simp only [step, enqueueEvent, hfull, if_true]
    apply iff_of_true _ (by omega)
    refine ⟨h.1, fun f hf => ?_⟩
    obtain hold | hnew := mem_append.mp hf
    · exact h.2 f hold
    · have hlen := h.lengths
      rw [mem_singleton.mp hnew, free, maxEvents]
      omega
  have hcount : count s.dev < 1022 := by
    rw [hring.fullQueue_iff] at hfull
    omega
  obtain ⟨hfirst, hlast, hevents⟩ := notify_ring s.dev
  obtain ⟨hsame, hsameCount⟩ := same_contents hfirst hlast hevents
  simp only [step, enqueueEvent, hfull, Bool.false_eq_true, if_false]
  by_cases hlt : count s.dev < 1021
  · apply iff_of_true _ (by omega)
    refine ⟨?_, h.2⟩
    rw [hring.notify.contents_put3 (by omega), hsame, ← append_assoc, h.1]
  -- the ring goes all the way round and looks empty
  apply iff_of_false _ (by omega)
  intro hright
  have hlen := hright.lengths
  have hempty := hring.notify.count_put3 type code value
  rw [hsameCount, maxEvents] at hempty
  have hbefore := h.lengths
  simp only [length_append, length_cons, length_nil, hempty] at hlen
  omega

theorem read_right (targetI386 : Bool) (pages : Pages) (hring : InRing s.dev) (h : Right s)
    (offset : Nat) : Right (step targetI386 pages s (.read offset)) := by
  obtain ⟨hfirst, hlast, hevents⟩ := becomeLive_ring s.dev offset
  obtain ⟨hsame, -⟩ := same_contents hfirst hlast hevents
  by_cases hread : offset = regRead
  · by_cases hne : s.dev.first = s.dev.last
    · apply h.of_same
      · simp only [step, eventsRead, hread, hne, not_true_eq_false, and_false, if_false, if_true, ne_eq]
        rw [dequeueEvent, if_pos (by rw [← hread, hfirst, hlast, hne]), ← hread, hsame]
      all_goals simp only [step, hne, ne_eq, not_true_eq_false, and_false, if_false]
    · have hlive : (becomeLive s.dev offset).first ≠ (becomeLive s.dev offset).last := by rw [hfirst, hlast]; exact hne
      have hword := ((hring.congr hfirst hlast).dequeue targetI386 hlive).2
      rw [hsame] at hword
      refine ⟨?_, ?_⟩
      · simp only [step, eventsRead, if_pos hread, if_pos (And.intro hread hne)]
        rw [append_assoc, singleton_append, hword, h.1]
      · simp only [step, if_pos (And.intro hread hne)]
        exact h.2
  · apply h.of_same
    · simp only [step, eventsRead, if_neg hread, if_neg (fun hc : offset = regRead ∧ _ => hread hc.1)]
      split_ifs <;> exact hsame
    all_goals simp only [step, if_neg (fun hc : offset = regRead ∧ _ => hread hc.1)]

theorem right_step_iff (hring : InRing s.dev) (h : Right s)
    (a : Act) : Right (step targetI386 pages s a) ↔ Meets s a := by
  cases a with
  | enqueue type code value => exact enqueue_right_iff hring h type code value
  | read offset => exact iff_of_true (read_right _ _ hring h offset) trivial
  | write offset val =>
    apply iff_of_true _ trivial
    apply h.of_same
    · simp only [step, eventsWrite]
      split <;> rfl
    all_goals rfl

def Acts (targetI386 : Bool) (pages : Pages) (s : Traced) (a : Act) (s' : Traced) : Prop :=
  s' = step targetI386 pages s a

/-- In a run in which no event comes while 1021 words wait, the guest reads the words of
the accepted events in order, the others are in the ring, and an event is lost only if
fewer than three words are free. -/
theorem events_right {targetI386 : Bool} {pages : Pages} {s : Traced}
    (h : Reach (· = start) (fun s a s' => Meets s a ∧ Acts targetI386 pages s a s') s) :
    s.dequeued <+: s.accepted ∧ Right s := by
  have hinv : InRing s.dev ∧ Right s := by
    apply h.invariant
    · intro s hs
      rw [hs]
      exact ⟨⟨by decide, by decide⟩, rfl, nofun⟩
    · intro s a s' ⟨hring, hright⟩ ⟨hmeets, hact⟩
      rw [hact]
      exact ⟨step_inRing _ _ hring a, (right_step_iff hring hright a).mpr hmeets⟩
  exact ⟨⟨_, hinv.2.1⟩, hinv.2⟩

def noPages : Pages := ⟨fun _ => 0, fun _ _ => 0⟩

/-- One event and one word read of it. -/
theorem oneEvent_right :
    [1] <+: (step false noPages (step false noPages start (.enqueue 1 30 1)) (.read regRead)).accepted := by
  have hevent : Reach (· = start) (fun s a s' => Meets s a ∧ Acts false noPages s a s')
      (step false noPages start (.enqueue 1 30 1)) := .step (.start rfl) ⟨by simp [Meets, count, start, reset], rfl⟩
  exact (events_right (.step (a := .read regRead) hevent ⟨trivial, rfl⟩)).1

/-! ### A run that loses words -/

/-- After 341 events and two words read, an event goes all the way round; the first word
of the next event is read in place of one that was not read yet. -/
def overrun : List Act :=
  replicate 341 (.enqueue 1 2 3) ++ [.read regRead, .read regRead, .enqueue 1 2 3, .enqueue 4 5 6, .read regRead]

theorem foldl_accepted (n : Nat) (hn : n ≤ 341) : ∃ dev : EventsState,
    (replicate n (.enqueue 1 2 3)).foldl (step false noPages) start = ⟨dev, (replicate n [1, 2, 3]).flatten, [], []⟩ ∧
      dev.first = 0 ∧ dev.last = 3 * n := by
  induction n with
  | zero => exact ⟨reset, rfl, rfl, rfl⟩
  | succ n ih =>
    obtain ⟨dev, hfold, hfirst, hlast⟩ := ih (by omega)
    obtain ⟨hfirst', hlast', -⟩ := notify_ring dev
    have hfull : ¬ fullQueue dev = true := by
      simp only [fullQueue, enqueued, hfirst, hlast, maxEvents, decide_eq_true_iff]
      split <;> omega
    refine ⟨put (put (put (notify dev) 1) 2) 3, ?_, hfirst'.trans hfirst, ?_⟩
    · rw [replicate_succ', foldl_append, hfold, replicate_succ', flatten_append]
      simp only [foldl_cons, foldl_nil, step, if_neg hfull, enqueueEvent]
      rfl
    · simp only [put, and_mask, hlast', hlast]
      rw [maxEvents]
      omega

theorem overrun_loses : ∃ s, Reach (· = start) (Acts false noPages) s ∧ ¬ s.dequeued <+: s.accepted := by
  refine ⟨_, Reach.foldl overrun (fun _ _ _ => rfl) (.start rfl), ?_⟩
  obtain ⟨⟨irq, page, events, first, last, state⟩, hfold, rfl, rfl⟩ := foldl_accepted 341 le_rfl
  have hwords : (replicate 341 [1, 2, 3]).flatten = 1 :: 2 :: 3 :: (replicate 340 [(1 : BitVec 32), 2, 3]).flatten := rfl
  rw [overrun, foldl_append, hfold, hwords]
  generalize (replicate 340 [(1 : BitVec 32), 2, 3]).flatten = words
  simp only [foldl_cons, foldl_nil]
  have hread : step false noPages (step false noPages ⟨⟨irq, page, events, 0, 1023, state⟩, 1 :: 2 :: 3 :: words, [], []⟩
      (.read regRead)) (.read regRead) =
        ⟨⟨irq, page, events, 2, 1023, state⟩, 1 :: 2 :: 3 :: words, [events 0, events 1], []⟩ := by
    simp [step, eventsRead, becomeLive, dequeueEvent, maxEvents, regRead, regLen]
  -- an event goes all the way round, and the next one begins at the first word that was not read
  rw [hread]
  simp only [step, enqueueEvent, fullQueue, enqueued, notify, maxEvents]
  by_cases hlive : state = .live <;>
    simp [put, hlive, eventsRead, becomeLive, dequeueEvent, maxEvents, regRead, regLen]

/-! ### The interrupt -/

/-- Once the driver is ready, the line is raised if and only if words wait. -/
def IrqRight (s : EventsState) : Prop := s.state = .live → (s.irq = true ↔ s.first ≠ s.last)

/-- No event comes to a ready driver while exactly 1021 words are in the ring, and a driver that becomes
ready has not read all the words that were buffered. -/
def IrqMeets (s : EventsState) : Act → Prop
  | .enqueue _ _ _ => s.state = .live → count s ≠ 1021
  | .read offset => offset = regLen → s.page = pageAbsdata → s.state = .buffered → s.first ≠ s.last
  | .write _ _ => True

/-- What a run keeps: nothing waits before the first event, and the line is low until the driver is ready. -/
structure Line (s : EventsState) : Prop where
  init : s.state = .init → s.first = s.last
  low : s.state ≠ .live → s.irq = false
  right : IrqRight s

namespace Line
variable {s : EventsState} (h : Line s)
include h

theorem enqueueEvent (hring : InRing s) {type code value : BitVec 32} (hmeets : s.state = .live → count s ≠ 1021) :
    Line (enqueueEvent s type code value) := by
  rw [Events.enqueueEvent]
  split
  · exact h
  rename_i hfull
  rw [hring.fullQueue_iff] at hfull
  -- the ring is empty again only if 1021 words were in it
  have hwrap : s.first = (put (put (put (notify s) type) code) value).last ↔ count s = 1021 := by
    obtain ⟨hfirst, hlast, hevents⟩ := notify_ring s
    have hempty := (((hring.notify.put type).put code).put value).empty_iff
    rw [hring.notify.count_put3, (same_contents hfirst hlast hevents).2, maxEvents] at hempty
    rw [← hfirst]
    exact hempty.trans (by omega)
  by_cases hempty : s.first = s.last
  · have hcount := hring.empty_iff.mp hempty
    rw [notify, if_pos hempty] at hwrap ⊢
    split at hwrap
    · rename_i hlive
      rw [if_pos hlive]
      exact ⟨fun hinit => absurd (hlive.symm.trans hinit) (by decide), fun hne => absurd hlive hne,
        fun _ => iff_of_true rfl (mt hwrap.mp (by omega))⟩
    · rename_i hlive
      rw [if_neg hlive]
      exact ⟨nofun, fun _ => h.low hlive, nofun⟩
  · rw [notify, if_neg hempty] at hwrap ⊢
    exact ⟨fun hinit => absurd (h.init hinit) hempty, h.low,
      fun hlive => iff_of_true ((h.right hlive).mpr hempty) (mt hwrap.mp (hmeets hlive))⟩

theorem becomeLive {offset : Nat} (hmeets : IrqMeets s (.read offset)) : Line (becomeLive s offset) := by
  rw [Events.becomeLive]
  split
  · rename_i hready
    refine ⟨nofun, fun hne => absurd rfl hne, fun _ => ?_⟩
    cases hstate : s.state with
    | init => simp [h.low, h.init, hstate]
    | buffered => simp [hmeets hready.1 hready.2 hstate]
    | live => simp [h.right hstate]
  · exact h

theorem dequeueEvent : Line (dequeueEvent false s).2 := by
  rw [Events.dequeueEvent]
  split
  · exact h
  rename_i hempty
  simp only [Bool.false_eq_true, false_and, if_false]
  split
  · rename_i hlast
    exact ⟨fun _ => hlast, fun _ => rfl, fun _ => iff_of_false Bool.false_ne_true (not_not.mpr hlast)⟩
  · rename_i hmore
    exact ⟨fun hinit => absurd (h.init hinit) hempty, h.low,
      fun hlive => iff_of_true ((h.right hlive).mpr hempty) hmore⟩

end Line

theorem Line.step (h : Line s.dev) (hring : InRing s.dev) {a : Act} (hmeets : IrqMeets s.dev a) :
    Line (step false pages s a).dev := by
  apply step_dev h (fun _ => ⟨h.init, h.low, h.right⟩)
  · rintro type code value rfl
    exact h.enqueueEvent hring hmeets
  · rintro offset rfl
    exact h.becomeLive hmeets
  · exact fun s h => h.dequeueEvent

/-- In a run in which no event comes to a ready driver while 1021 words wait and buffered words still wait
when it becomes ready, the line of a ready driver is raised if and only if words wait. -/
theorem irq_iff_waiting {pages : Pages} {s : Traced}
    (h : Reach (· = start) (fun s a s' => IrqMeets s.dev a ∧ Acts false pages s a s') s) : IrqRight s.dev := by
  have hinv : InRing s.dev ∧ Line s.dev := by
    apply h.invariant
    · intro s hs
      rw [hs]
      exact ⟨⟨by decide, by decide⟩, fun _ => rfl, fun _ => rfl, nofun⟩
    · intro s a s' ⟨hring, hline⟩ ⟨hmeets, hact⟩
      rw [hact]
      exact ⟨step_inRing _ _ hring a, hline.step hring hmeets⟩
  exact hinv.2.right

/-- An event waits when the driver becomes ready. -/
theorem buffered_raised : (step false noPages (step false noPages (step false noPages start (.enqueue 1 30 1))
    (.write regSetPage pageAbsdata)) (.read regLen)).dev.irq = true := by
  have hpage : Reach (· = start) (fun s a s' => IrqMeets s.dev a ∧ Acts false noPages s a s')
      (step false noPages (step false noPages start (.enqueue 1 30 1)) (.write regSetPage pageAbsdata)) :=
    .step (a := .write _ _) (.step (a := .enqueue _ _ _) (.start rfl) ⟨fun hlive => absurd hlive (by decide), rfl⟩)
      ⟨trivial, rfl⟩
  exact (irq_iff_waiting (hpage.step (a := .read regLen) ⟨fun _ _ _ => by decide, rfl⟩) rfl).mpr (by decide)

/-- The guest reads the only event before the driver is ready. -/
theorem drained_raised : ∃ s, Reach (· = start) (Acts false noPages) s ∧
    s.dev.state = .live ∧ s.dev.irq = true ∧ s.dev.first = s.dev.last :=
  ⟨_, Reach.foldl [.enqueue 1 30 1, .read regRead, .read regRead, .read regRead, .write regSetPage pageAbsdata,
    .read regLen] (fun _ _ _ => rfl) (.start rfl), by decide⟩

end GemDroid.Goldfish.Events
