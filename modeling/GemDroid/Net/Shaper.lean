import GemDroid.Lib.Reach
import Mathlib.Algebra.Order.Group.Int

/-! The network shaper of `android/shaper.c`.

A packet of `n` bytes that goes through blocks its direction for `delay n` milliseconds; a
packet submitted before that is queued, and a timer passes it on when its time has come.
The model follows the fields of `NetShaperRec`. The rate enters only through `delay`, the
data of a packet stays where the caller put it unless the shaper copies it, and the calls
of `send_func` are kept in the order they are made. -/
namespace GemDroid.Net.Shaper
open List

variable {delay : Nat → Nat} {now : Int}

abbrev Memory := Nat → UInt8

def readBytes (mem : Memory) (data size : Nat) : List UInt8 :=
  (List.range size).map fun k => mem (data + k)

def packetIsInternal (mem : Memory) (data size : Nat) : Bool :=
  if size < 40 then false
  else if mem (data + 12) ≠ 0x08 ∨ mem (data + 13) ≠ 0x00 then false
  else
    let ip := data + 14
    if mem ip >>> 4 ≠ 4 ∨ mem ip &&& 15 < 5 then false
    else mem (ip + 12) == 10 && mem (ip + 16) == 10

inductive PacketData
  | copied (bytes : List UInt8)
  | shared (data : Nat)
  deriving DecidableEq, Repr

/-- `QueuedPacketRec`; the list gives `next`, and `serial` is the position of the packet among
those submitted, which the source does not keep. -/
structure QueuedPacket where
  serial : Nat
  expiration : Int
  size : Nat
  user : Nat
  data : PacketData
  deriving DecidableEq, Repr

variable {ps : List QueuedPacket}

open QueuedPacket

def queuedPacketCreate (mem : Memory) (serial data size user : Nat) (doCopy : Bool) : QueuedPacket where
  serial := serial
  expiration := 0
  size := size
  user := user
  data := if doCopy then .copied (readBytes mem data size) else .shared data

def QueuedPacket.bytes (mem : Memory) (p : QueuedPacket) : List UInt8 :=
  match p.data with
  | .copied bytes => bytes
  | .shared data => readBytes mem data p.size

/-- `NetShaperRec`; `timer` is the time the timer is programmed for. -/
structure NetShaper where
  packets : List QueuedPacket
  numPackets : Int
  active : Bool
  blockUntil : Int
  timer : Option Int
  doCopy : Bool
  deriving DecidableEq, Repr

/-- What a packet is to the caller: its size, the opaque pointer and its bytes. -/
structure Packet where
  size : Nat
  user : Nat
  bytes : List UInt8
  deriving DecidableEq, Repr

def QueuedPacket.packet (mem : Memory) (p : QueuedPacket) : Packet := ⟨p.size, p.user, p.bytes mem⟩

/-- A call of `send_func`. -/
structure Passed where
  serial : Nat
  time : Int
  packet : Packet
  deriving DecidableEq, Repr

/-- `netshaper_create`. The argument `doCopy` is not stored: the field keeps what `g_malloc`
left in it, here `fresh`. -/
def netshaperCreate (_doCopy fresh : Bool) : NetShaper where
  packets := []
  numPackets := 0
  active := false
  blockUntil := -1
  timer := none
  doCopy := fresh

def netshaperSetRate (mem : Memory) (now : Int) (limited : Bool) (s : NetShaper) : NetShaper × List Passed :=
  ({ s with
      packets := []
      numPackets := if s.packets.isEmpty then s.numPackets else 0
      active := limited
      blockUntil := -1 },
    s.packets.map fun p => ⟨p.serial, now, p.packet mem⟩)

/-- Put a packet before the first one that expires after it. -/
def insertPacket (p : QueuedPacket) : List QueuedPacket → List QueuedPacket
  | [] => [p]
  | q :: qs => if q.expiration > p.expiration then p :: q :: qs else q :: insertPacket p qs

def netshaperSendAux (delay : Nat → Nat) (mem : Memory) (now : Int)
    (serial data size user : Nat) (s : NetShaper) : NetShaper × List Passed :=
  let pass : Passed := ⟨serial, now, size, user, readBytes mem data size⟩
  if !s.active || packetIsInternal mem data size then (s, [pass])
  else if now ≥ s.blockUntil then ({ s with blockUntil := now + delay size }, [pass])
  else
    let p := { queuedPacketCreate mem serial data size user s.doCopy with expiration := s.blockUntil }
    -- the timer is programmed for a packet that goes to the front
    let front := s.packets.head?.all fun q => q.expiration > p.expiration
    ({ s with
        packets := insertPacket p s.packets
        numPackets := s.numPackets + 1
        blockUntil := s.blockUntil + delay size
        timer := if front then some p.expiration else s.timer }, [])

/-- The loop of `netshaper_expires`: the packets that are due, and those left. -/
def popExpired (now : Int) : List QueuedPacket → List QueuedPacket × List QueuedPacket
  | [] => ([], [])
  | p :: ps =>
    if p.expiration > now then ([], p :: ps)
    else
      let r := popExpired now ps
      (p :: r.1, r.2)

def netshaperExpires (mem : Memory) (now : Int) (s : NetShaper) : NetShaper × List Passed :=
  let r := popExpired now s.packets
  let s := { s with packets := r.2, numPackets := s.numPackets - r.1.length }
  (match r.2 with
    | [] => { s with blockUntil := -1 }
    | p :: _ => { s with blockUntil := p.expiration, timer := some p.expiration },
    r.1.map fun p => ⟨p.serial, now, p.packet mem⟩)

/-- The shaper with its surroundings: the memory of its callers, the clock, the packets
submitted so far and the calls of `send_func`. -/
structure World where
  shaper : NetShaper
  mem : Memory
  clock : Int
  submitted : List Packet
  passed : List Passed

/-- What can happen: a packet is submitted, the timer expires, or memory changes. -/
inductive Op
  | sendAux (now : Int) (data size user : Nat)
  | expire
  | write (mem : Memory)

section Step
variable (delay : Nat → Nat)

/-- One step. The timer goes off at the time it is programmed for. -/
def World.step (x : World) : Op → World
  | .sendAux now data size user =>
    let r := netshaperSendAux delay x.mem now x.submitted.length data size user x.shaper
    { x with
      shaper := r.1
      clock := now
      submitted := x.submitted ++ [⟨size, user, readBytes x.mem data size⟩]
      passed := x.passed ++ r.2 }
  | .expire =>
    match x.shaper.timer with
    | none => x
    | some now =>
      let r := netshaperExpires x.mem now { x.shaper with timer := none }
      { x with shaper := r.1, clock := now, passed := x.passed ++ r.2 }
  | .write mem => { x with mem := mem }

end Step

/-- Time does not go back nor past a programmed timer, and no packet is internal. -/
def Op.Legal (x : World) : Op → Prop
  | .sendAux now data size _ =>
    x.clock ≤ now ∧ (∀ t ∈ x.shaper.timer, now ≤ t) ∧ packetIsInternal x.mem data size = false
  | .expire | .write _ => True

structure Initial (doCopy : Bool) (x : World) : Prop where
  shaper : ∃ fresh mem now, x.shaper = (netshaperSetRate mem now true (netshaperCreate doCopy fresh)).1
  clock : 0 ≤ x.clock
  submitted : x.submitted = []
  passed : x.passed = []

/-- The step finds the shaper as its rule supposes. A packet is submitted either behind a
queue whose last packet `block_until` still accounts for, or to an empty queue, and then not
within the delay of the last packet that went through unless `block_until` says so. Memory
is not changed under a packet that must keep its bytes. -/
def Op.Orderly (delay : Nat → Nat) (doCopy : Bool) (x : World) : Op → Prop
  | .sendAux now _ _ _ =>
    match x.shaper.packets.getLast? with
    | some p => x.shaper.blockUntil = p.expiration + delay p.size ∧ now < x.shaper.blockUntil
    | none => x.shaper.blockUntil ≤ now → ∀ p ∈ x.passed.getLast?, p.time + delay p.packet.size ≤ now
  | .expire => True
  | .write mem => doCopy = true → ∀ p ∈ x.shaper.packets, p.bytes mem = p.bytes x.mem

structure Shaped (delay : Nat → Nat) (doCopy : Bool) (x : World) : Prop where
  order : x.passed.map (·.serial) ++ x.shaper.packets.map (·.serial) = List.range x.submitted.length
  bytes : doCopy = true → ∀ p ∈ x.passed, x.submitted[p.serial]? = some p.packet
  spacing : x.passed.Pairwise fun (p q : Passed) => p.time + delay p.packet.size ≤ q.time
  pending : x.shaper.timer = x.shaper.packets.head?.map (·.expiration)

section Queue
variable {p q : QueuedPacket}

def Passed.slot (p : Passed) : Int × Nat := (p.time, p.packet.size)

def QueuedPacket.slot (p : QueuedPacket) : Int × Nat := (p.expiration, p.size)

/-- The second time is not within the delay of the first. -/
def Apart (delay : Nat → Nat) (a b : Int × Nat) : Prop := a.1 + delay a.2 ≤ b.1

theorem insertPacket_last (h : ∀ q ∈ ps, q.expiration ≤ p.expiration) : insertPacket p ps = ps ++ [p] := by
  induction ps with
  | nil => rfl
  | cons q qs ih =>
    have hq := h q (by simp)
    rw [insertPacket, if_neg (by omega), ih fun q' hq' => h q' (by simp [hq'])]
    rfl

theorem popExpired_eq (now : Int) (ps : List QueuedPacket) :
    popExpired now ps = (ps.takeWhile (·.expiration ≤ now), ps.dropWhile (·.expiration ≤ now)) := by
  induction ps with
  | nil => rfl
  | cons p ps ih =>
    rw [popExpired, ih]
    split
    next hp => simp [Int.not_le.2 hp]
    next hp => simp [Int.not_lt.1 hp]

end Queue

/-- What every step keeps: the packets in their order, their times apart, and `block_until`
behind an empty queue. -/
structure Inv (delay : Nat → Nat) (doCopy : Bool) (x : World) : Prop where
  active : x.shaper.active = true
  clock : 0 ≤ x.clock
  order : x.passed.map (·.serial) ++ x.shaper.packets.map (·.serial) = List.range x.submitted.length
  bytes : doCopy = true → ∀ p ∈ x.passed, x.submitted[p.serial]? = some p.packet
  kept : doCopy = true → ∀ p ∈ x.shaper.packets, x.submitted[p.serial]? = some (p.packet x.mem)
  apart : (x.passed.map (·.slot) ++ x.shaper.packets.map (·.slot)).Pairwise (Apart delay)
  future : ∀ p ∈ x.shaper.packets, x.clock ≤ p.expiration
  pending : x.shaper.timer = x.shaper.packets.head?.map (·.expiration)
  block : x.shaper.packets = [] → x.shaper.blockUntil = -1 ∨
    ∃ p, x.passed.getLast? = some p ∧ x.shaper.blockUntil = p.time + delay p.packet.size

section Steps
variable {doCopy : Bool} {x : World}

theorem Inv.shaped (h : Inv delay doCopy x) : Shaped delay doCopy x := by
  refine ⟨h.order, h.bytes, ?_, h.pending⟩
  have := (pairwise_append.1 h.apart).1
  rwa [pairwise_map] at this

theorem Inv.initial (h : Initial doCopy x) : Inv delay doCopy x := by
  obtain ⟨fresh, mem, now, hs⟩ := h.shaper
  constructor
  · rw [hs]; rfl
  · exact h.clock
  · simp [hs, h.passed, h.submitted, netshaperSetRate]
  · simp [h.passed]
  · simp [hs, netshaperSetRate]
  · simp [hs, h.passed, netshaperSetRate]
  · simp [hs, netshaperSetRate]
  · simp [hs, netshaperSetRate, netshaperCreate]
  · exact fun _ => .inl (by simp [hs, netshaperSetRate])

variable {p : QueuedPacket} {data size user : Nat}

theorem expiration_le_last (h : (ps.map (·.slot)).Pairwise (Apart delay)) (hp : ps.getLast? = some p) :
    ∀ q ∈ ps, q.expiration ≤ p.expiration := by
  intro q hq
  obtain ⟨init, rfl⟩ := List.getLast?_eq_some_iff.1 hp
  rcases mem_append.1 hq with hq | hq
  · rw [map_append, pairwise_append] at h
    have := h.2.2 q.slot (mem_map_of_mem hq) p.slot (by simp)
    simp only [Apart, slot] at this
    omega
  · rw [mem_singleton.1 hq]

/-- Times that keep apart up to the last one keep apart from what comes after its delay. -/
theorem pairwise_concat {l : List (Int × Nat)} {a : Int × Nat} (h : l.Pairwise (Apart delay))
    (ha : ∀ b ∈ l.getLast?, Apart delay b a) : (l ++ [a]).Pairwise (Apart delay) := by
  rw [pairwise_append]
  refine ⟨h, pairwise_singleton _ _, fun b hb c hc => ?_⟩
  rw [mem_singleton.1 hc]
  rcases eq_nil_or_concat l with rfl | ⟨init, z, hl⟩
  · cases hb
  rw [concat_eq_append] at hl
  subst hl
  have hz : Apart delay z a := ha z (by simp)
  rcases mem_append.1 hb with hb | hb
  · have := (pairwise_append.1 h).2.2 b hb z (by simp)
    simp only [Apart] at this hz ⊢
    omega
  · rwa [mem_singleton.1 hb]

section
variable (h : Inv delay doCopy x)
include h

theorem Inv.passed_serial_lt {p : Passed} (hp : p ∈ x.passed) : p.serial < x.submitted.length := by
  rw [← mem_range, ← h.order]
  exact mem_append_left _ (mem_map_of_mem hp)

theorem Inv.queued_serial_lt (hp : p ∈ x.shaper.packets) : p.serial < x.submitted.length := by
  rw [← mem_range, ← h.order]
  exact mem_append_right _ (mem_map_of_mem hp)

theorem Inv.timer_le {t : Int} (ht : x.shaper.timer = some t) (hp : p ∈ x.shaper.packets) : t ≤ p.expiration := by
  have hapart := (pairwise_append.1 h.apart).2.1
  rw [h.pending] at ht
  cases hps : x.shaper.packets with
  | nil =>
    rw [hps] at hp
    cases hp
  | cons a as =>
    rw [hps] at hp hapart ht
    obtain rfl : a.expiration = t := Option.some.inj ht
    rcases mem_cons.1 hp with rfl | hp
    · exact le_rfl
    · have := (pairwise_cons.1 hapart).1 p.slot (mem_map_of_mem hp)
      simp only [Apart, slot] at this
      omega

section
variable (hnow : x.clock ≤ now) (hint : packetIsInternal x.mem data size = false)
include hnow hint

theorem Inv.pass (hfree : x.shaper.blockUntil ≤ now) (hempty : x.shaper.packets = [])
    (hlast : ∀ p ∈ x.passed.getLast?, p.time + delay p.packet.size ≤ now) :
    Inv delay doCopy (x.step delay (.sendAux now data size user)) := by
  have hstep : x.step delay (.sendAux now data size user) = { x with
        shaper := { x.shaper with blockUntil := now + delay size }
        clock := now
        submitted := x.submitted ++ [⟨size, user, readBytes x.mem data size⟩]
        passed := x.passed ++ [⟨x.submitted.length, now, size, user, readBytes x.mem data size⟩] } := by
    simp [World.step, netshaperSendAux, h.active, hint, Bool.not_true, Bool.or_self,
      Bool.false_eq_true, ge_iff_le, if_pos hfree]
  have horder := h.order
  have hapart := h.apart
  simp only [hempty, map_nil, append_nil] at horder hapart
  rw [hstep]
  constructor
  · exact h.active
  · exact h.clock.trans hnow
  · simp [hempty, horder, range_succ]
  · intro hc p hp
    rcases mem_append.1 hp with hp | hp
    · rw [List.getElem?_append_left (h.passed_serial_lt hp)]
      exact h.bytes hc p hp
    · rw [mem_singleton.1 hp]
      simp
  · simp [hempty]
  · simp only [hempty, map_nil, append_nil, map_append, map_cons]
    refine pairwise_concat hapart fun b hb => ?_
    rw [List.getLast?_map, Option.mem_def, Option.map_eq_some_iff] at hb
    obtain ⟨p, hp, rfl⟩ := hb
    exact hlast p hp
  · simp [hempty]
  · exact h.pending
  · exact fun _ => .inr ⟨_, List.getLast?_concat, rfl⟩

theorem Inv.queue (hblocked : now < x.shaper.blockUntil)
    (hlast : ∀ b ∈ (x.passed.map (·.slot) ++ x.shaper.packets.map (·.slot)).getLast?,
      b.1 + delay b.2 ≤ x.shaper.blockUntil) (htimer : ∀ t ∈ x.shaper.timer, now ≤ t) :
    Inv delay doCopy (x.step delay (.sendAux now data size user)) := by
  generalize hp : ({ queuedPacketCreate x.mem x.submitted.length data size user x.shaper.doCopy with
      expiration := x.shaper.blockUntil } : QueuedPacket) = p
  have hslot : p.slot = (x.shaper.blockUntil, size) := by rw [← hp]; rfl
  have hexp : p.expiration = x.shaper.blockUntil := by rw [← hp]
  have hserial : p.serial = x.submitted.length := by rw [← hp]; rfl
  have hpacket : p.packet x.mem = ⟨size, user, readBytes x.mem data size⟩ := by
    rw [← hp]
    simp only [packet, queuedPacketCreate]
    cases x.shaper.doCopy <;> rfl
  have hapart := pairwise_concat (a := p.slot) h.apart fun b hb => by
    simpa [hslot, Apart] using hlast b hb
  rw [append_assoc] at hapart
  have hqueue : ((x.shaper.packets ++ [p]).map (·.slot)).Pairwise (Apart delay) := by
    rw [map_append]
    exact (pairwise_append.1 hapart).2.1
  have hle : ∀ q ∈ x.shaper.packets, q.expiration ≤ p.expiration := fun q hq =>
    expiration_le_last hqueue List.getLast?_concat q (mem_append_left _ hq)
  have hfront : (if (x.shaper.packets.head?.all fun q => q.expiration > p.expiration) = true
      then some p.expiration else x.shaper.timer) =
      (x.shaper.packets ++ [p]).head?.map (·.expiration) := by
    rw [h.pending]
    cases hps : x.shaper.packets with
    | nil => simp
    | cons q qs =>
      have := hle q (by simp [hps])
      simp [this]
  rw [hexp] at hfront
  have hstep : x.step delay (.sendAux now data size user) = { x with
        shaper := { x.shaper with
          packets := x.shaper.packets ++ [p]
          numPackets := x.shaper.numPackets + 1
          blockUntil := x.shaper.blockUntil + delay size
          timer := (x.shaper.packets ++ [p]).head?.map (·.expiration) }
        clock := now
        submitted := x.submitted ++ [⟨size, user, readBytes x.mem data size⟩] } := by
    simp [World.step, netshaperSendAux, h.active, hint, Bool.not_true, Bool.or_self,
      Bool.false_eq_true, ge_iff_le, if_neg (Int.not_le.2 hblocked), hp, hfront,
      insertPacket_last hle, append_nil]
  rw [hstep]
  constructor
  · exact h.active
  · exact h.clock.trans hnow
  · simp [← append_assoc, h.order, hserial, range_succ]
  · intro hc q hq
    rw [List.getElem?_append_left (h.passed_serial_lt hq)]
    exact h.bytes hc q hq
  · intro hc q hq
    rcases mem_append.1 hq with hq | hq
    · rw [List.getElem?_append_left (h.queued_serial_lt hq)]
      exact h.kept hc q hq
    · rw [mem_singleton.1 hq, hserial, hpacket]
      simp
  · simpa using hapart
  · intro q hq
    -- a queued packet comes no earlier than the timer, which has not gone off
    rcases mem_append.1 hq with hq | hq
    · obtain ⟨t, ht⟩ : ∃ t, x.shaper.timer = some t := by
        rw [h.pending]
        cases hps : x.shaper.packets with
        | nil =>
          rw [hps] at hq
          cases hq
        | cons a as => exact ⟨_, rfl⟩
      exact (htimer t ht).trans (h.timer_le ht hq)
    · rw [mem_singleton.1 hq, hexp]
      exact hblocked.le
  · rfl
  · intro he
    simp at he

end

/-- The timer expires: the packets that are due go out at the time they were given. -/
theorem Inv.expire : Inv delay doCopy (x.step delay .expire) := by
  cases hps : x.shaper.packets with
  | nil =>
    have ht : x.shaper.timer = none := by rw [h.pending, hps]; rfl
    simpa only [World.step, ht] using h
  | cons a as =>
    have ht : x.shaper.timer = some a.expiration := by rw [h.pending, hps]; rfl
    generalize hr : popExpired a.expiration x.shaper.packets = r
    have hsplit : r.1 ++ r.2 = x.shaper.packets := by rw [← hr, popExpired_eq]; exact takeWhile_append_dropWhile
    have hdue : ∀ p ∈ r.1, p.expiration = a.expiration := by
      intro p hp
      have hle := hp
      rw [← hr, popExpired_eq] at hle
      exact le_antisymm (of_decide_eq_true (all_eq_true.1 all_takeWhile p hle)) (h.timer_le ht (by rw [← hsplit]; exact mem_append_left _ hp))
    have hslots : (r.1.map fun p => (⟨p.serial, a.expiration, p.packet x.mem⟩ : Passed)).map (·.slot) =
        r.1.map (·.slot) := by
      rw [map_map]
      refine map_congr_left fun p hp => ?_
      simp [Passed.slot, slot, packet, hdue p hp]
    have hrest : ∀ p ∈ r.2, p ∈ x.shaper.packets := fun p hp => by
      rw [← hsplit]; exact mem_append_right _ hp
    obtain ⟨s', hs', hpackets, hactive, htimer, hblock⟩ :
        ∃ s', (netshaperExpires x.mem a.expiration { x.shaper with timer := none }).1 = s' ∧
          s'.packets = r.2 ∧ s'.active = true ∧ s'.timer = r.2.head?.map (·.expiration) ∧
          (r.2 = [] → s'.blockUntil = -1) := by
      refine ⟨_, rfl, ?_⟩
      simp only [netshaperExpires, hr]
      cases r.2 with
      | nil => exact ⟨rfl, h.active, rfl, fun _ => rfl⟩
      | cons p ps => exact ⟨rfl, h.active, rfl, fun he => by cases he⟩
    have hstep : x.step delay .expire = { x with
          shaper := s'
          clock := a.expiration
          passed := x.passed ++ r.1.map fun p => ⟨p.serial, a.expiration, p.packet x.mem⟩ } := by
      simp only [World.step, ht, hs']
      simp [netshaperExpires, hr]
    rw [hstep]
    constructor
    · exact hactive
    · exact h.clock.trans (h.future a (by simp [hps]))
    · have := h.order
      rw [← hsplit, map_append, ← append_assoc] at this
      simpa [hpackets, Function.comp_def] using this
    · intro hc p hp
      rcases mem_append.1 hp with hp | hp
      · exact h.bytes hc p hp
      · obtain ⟨q, hq, rfl⟩ := mem_map.1 hp
        exact h.kept hc q (by rw [← hsplit]; exact mem_append_left _ hq)
    · intro hc p hp
      rw [hpackets] at hp
      exact h.kept hc p (hrest p hp)
    · have := h.apart
      rw [← hsplit, map_append, ← append_assoc] at this
      rw [hpackets, map_append, hslots]
      exact this
    · intro p hp
      rw [hpackets] at hp
      exact h.timer_le ht (hrest p hp)
    · rw [hpackets]
      exact htimer
    · intro he
      rw [hpackets] at he
      exact .inl (hblock he)

theorem Inv.write {mem : Memory} (hmem : doCopy = true → ∀ p ∈ x.shaper.packets, p.bytes mem = p.bytes x.mem) :
    Inv delay doCopy (x.step delay (.write mem)) :=
  { h with
    kept := fun hc p hp => by
      show x.submitted[p.serial]? = some (p.packet mem)
      rw [h.kept hc p hp, packet, packet, hmem hc p hp] }

theorem Inv.sendAux (hlegal : (Op.sendAux now data size user).Legal x)
    (horder : (Op.sendAux now data size user).Orderly delay doCopy x) :
    Inv delay doCopy (x.step delay (.sendAux now data size user)) := by
  obtain ⟨hnow, htimer, hint⟩ := hlegal
  simp only [Op.Orderly] at horder
  cases hlast : x.shaper.packets.getLast? with
  | some p =>
    simp only [hlast] at horder
    refine h.queue hnow hint horder.2 (fun b hb => ?_) htimer
    rw [List.getLast?_append, List.getLast?_map, hlast] at hb
    cases hb
    exact horder.1.ge
  | none =>
    simp only [hlast] at horder
    have hempty : x.shaper.packets = [] := List.getLast?_eq_none_iff.1 hlast
    by_cases hfree : x.shaper.blockUntil ≤ now
    · exact h.pass hnow hint hfree hempty (horder hfree)
    refine h.queue hnow hint (Int.not_le.1 hfree) (fun b hb => ?_) htimer
    rw [hempty, map_nil, append_nil, List.getLast?_map] at hb
    rcases h.block hempty with hb' | ⟨p, hp, hb'⟩
    · have := h.clock
      omega
    · rw [hp] at hb
      cases hb
      exact hb'.ge

end

end Steps

/-- **The shaper keeps its rule in every run whose steps are orderly.** Packets go through in
the order they were submitted and each at most once, with their bytes if copies were asked
for; none comes within the delay of another, and the timer is set for the first one waiting. -/
theorem shaped_of_reach (delay : Nat → Nat) (doCopy : Bool) {x : World}
    (h : Lib.Reach (Initial doCopy) (fun x op x' => op.Legal x ∧ op.Orderly delay doCopy x ∧
      x' = x.step delay op) x) : Shaped delay doCopy x := by
  refine (h.invariant (I := Inv delay doCopy) (fun _ => Inv.initial) ?_).shaped
  rintro y op _ hI ⟨hlegal, horder, rfl⟩
  cases op with
  | sendAux now data size user => exact hI.sendAux hlegal horder
  | expire => exact hI.expire
  | write mem => exact hI.write horder

def freshWorld : World where
  shaper := (netshaperSetRate (fun _ => 0) 0 true (netshaperCreate true false)).1
  mem := fun _ => 0
  clock := 0
  submitted := []
  passed := []

theorem freshWorld_initial : Initial true freshWorld :=
  ⟨⟨false, fun _ => 0, 0, rfl⟩, le_rfl, rfl, rfl⟩

/-- Two packets of ten and twenty bytes; the second waits until the timer passes it on. -/
def pacedPair : World :=
  [Op.sendAux 0 0 10 7, .sendAux 5 64 20 8, .expire].foldl (World.step id) freshWorld

theorem pacedPair_shaped : pacedPair.passed.length = 2 ∧ Shaped id true pacedPair := by
  refine ⟨rfl, shaped_of_reach id true ?_⟩
  refine .step (a := .expire) (.step (a := .sendAux 5 64 20 8) (.step (a := .sendAux 0 0 10 7)
    (.start freshWorld_initial) ⟨⟨le_rfl, ?_, rfl⟩, ?_, rfl⟩) ⟨⟨?_, ?_, rfl⟩, ?_, rfl⟩)
    ⟨trivial, trivial, rfl⟩
  · rintro t ⟨⟩
  · rintro - p ⟨⟩
  · decide
  · rintro t ⟨⟩
  · intro hfree
    exact absurd hfree (by decide)

/-- Three packets of ten bytes: two at once, and a third when the timer has passed the second. -/
def lateThird : World :=
  [Op.sendAux 0 0 10 7, .sendAux 0 0 10 8, .expire, .sendAux 10 0 10 9].foldl (World.step id) freshWorld

/-- `netshaper_expires` forgets the delay of the packet it has passed: the third packet goes
through at once, ten milliseconds too early. -/
theorem lateThird_not_shaped : Lib.Reach (Initial true) (fun x op x' => op.Legal x ∧ x' = x.step id op) lateThird ∧
      ¬ Shaped id true lateThird := by
  refine ⟨.step (a := .sendAux 10 0 10 9) (.step (a := .expire) (.step (a := .sendAux 0 0 10 8)
    (.step (a := .sendAux 0 0 10 7) (.start freshWorld_initial) ⟨⟨le_rfl, ?_, rfl⟩, rfl⟩)
    ⟨⟨le_rfl, ?_, rfl⟩, rfl⟩) ⟨trivial, rfl⟩) ⟨⟨?_, ?_, rfl⟩, rfl⟩, fun h => ?_⟩
  · rintro t ⟨⟩
  · rintro t ⟨⟩
  · decide
  · rintro t ⟨⟩
  · have hspacing := h.spacing
    revert hspacing
    decide

end GemDroid.Net.Shaper
