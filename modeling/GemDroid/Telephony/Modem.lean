import Mathlib.Data.List.Basic

/-! The voice calls of `telephony/android_modem.c`.

Calls live in the first `call_count` slots of an array, which is compacted when one is
freed; what was in the last slot stays there until the slot is used again. A dialled call
has a timer from the pool of `sysdeps_qemu.c`, and the timer keeps the address of the slot
the call was in when it was armed. The tags of the calls, and the owners of the timers,
are not in the source: they say which call is which after the array has been compacted.
Replies to the guest and messages to other emulators are left out. -/
namespace GemDroid.Telephony
open Function List

inductive CallState
  | active
  | held
  | dialing
  | alerting
  | incoming
  | waiting
  deriving DecidableEq, Repr

inductive CallMode
  | voice
  | data
  | fax
  | unknown
  deriving DecidableEq, Repr

abbrev TimerId := Nat

/-- `AVoiceCallRec`, with the tag of the call. -/
structure VoiceCall where
  id : Int
  state : CallState
  mode : CallMode
  number : List Char
  timer : Option TimerId
  isRemote : Bool
  tag : Nat
  deriving DecidableEq, Repr

/-- A pending timer: the slot its callback gets, and the tag of the call it was armed for. -/
structure Armed where
  slot : Nat
  tag : Nat
  deriving DecidableEq, Repr

/-- The part of `AModemRec` that holds the calls, and the timer pool. -/
structure Modem where
  calls : Nat → VoiceCall
  callCount : Nat
  freeTimers : List TimerId
  armed : TimerId → Option Armed
  owner : TimerId → Nat
  nextTag : Nat

/-- How a step goes wrong. The last two are not noticed by the source, which puts the timer on
the free list once more. -/
inductive Fault
  /-- `voice_call_event`: "unreachable event call state". -/
  | unreachableState
  /-- `amodem_free_call`: the call is not one of the live ones. -/
  | callNotFound
  /-- `sys_timer_set` on the null pointer of an empty pool. -/
  | noTimer
  | destroyedTwice
  | destroyedForAnother
  deriving DecidableEq, Repr

def maxCalls : Nat := 4

def maxTimers : Nat := 32

namespace Modem

def modify (m : Modem) (k : Nat) (f : VoiceCall → VoiceCall) : Modem :=
  { m with calls := update m.calls k (f (m.calls k)) }

def sysTimerCreate (m : Modem) (tag : Nat) : Option (TimerId × Modem) :=
  match m.freeTimers with
  | [] => none
  | t :: rest => some (t, { m with freeTimers := rest, owner := update m.owner t tag })

def sysTimerSet (m : Modem) (t : TimerId) (slot : Nat) : Modem :=
  { m with armed := update m.armed t (some ⟨slot, (m.calls slot).tag⟩) }

def sysTimerDestroy (m : Modem) (t : TimerId) (tag : Nat) : Except Fault Modem :=
  if t ∈ m.freeTimers then .error .destroyedTwice
  else if m.owner t ≠ tag then .error .destroyedForAnother
  else .ok { m with armed := update m.armed t none, freeTimers := t :: m.freeTimers }

def allocCall (m : Modem) : Option (Nat × Modem) :=
  let count := m.callCount
  if count < maxCalls then
    let used := fun (id : Nat) => (range count).any fun nn => (m.calls nn).id == (id + 1 : Int)
    let id := ((range count).find? fun id => !used id).getD count
    let m := m.modify count fun c => { c with id := id + 1, tag := m.nextTag }
    some (count, { m with callCount := count + 1, nextTag := m.nextTag + 1 })
  else none

def removeSlot (m : Modem) (nn : Nat) : Modem :=
  { m with
    calls := fun k => if nn ≤ k ∧ k + 1 < m.callCount then m.calls (k + 1) else m.calls k
    callCount := m.callCount - 1 }

def freeCall (m : Modem) (nn : Nat) : Except Fault Modem := do
  let c := m.calls nn
  let m ← match c.timer with
    | some t => do
      let m ← m.sysTimerDestroy t c.tag
      pure (m.modify nn fun c => { c with timer := none })
    | none => pure m
  let m := m.modify nn fun c => { c with isRemote := false }
  if nn < m.callCount then pure (m.removeSlot nn) else .error .callNotFound

def findCall (m : Modem) (id : Int) : Option Nat :=
  (range m.callCount).find? fun nn => (m.calls nn).id == id

def findCallByNumber (m : Modem) (number : List Char) : Option Nat :=
  (range m.callCount).find? fun nn => (m.calls nn).number == number

end Modem

def phonePrefix : List Char := ['1', '5', '5', '5', '5', '2', '1']

def numberMaxSize : Nat := 16

/-- The number that `handleDial` stores: without a final semicolon, cut to the size of the
field, and with 4, 7 and 10 digits made 11. -/
def dialledNumber (cmd : List Char) : List Char :=
  let len := if cmd.getLast? = some ';' then cmd.length - 1 else cmd.length
  let len := min len numberMaxSize
  let digits := cmd.take len
  if len = 10 ∧ cmd.take 6 = (phonePrefix.drop 1).take 6 then phonePrefix.take 1 ++ digits
  else if len = 7 ∧ cmd.take 3 = (phonePrefix.drop 4).take 3 then phonePrefix.take 4 ++ digits
  else if len = 4 then phonePrefix ++ digits
  else digits

section Handlers
variable (isRemoteNumber : List Char → Bool) (m : Modem)

def handleDial (cmd : List Char) : Except Fault Modem :=
  match m.allocCall with
  | none => .ok m
  | some (slot, m) => do
    let number := dialledNumber cmd
    let m := m.modify slot fun c =>
      { c with state := .dialing, mode := .voice, number := number, isRemote := isRemoteNumber number }
    match m.sysTimerCreate (m.calls slot).tag with
    | none => .error .noTimer
    | some (t, m) =>
      let m := m.modify slot fun c => { c with timer := some t }
      pure (m.sysTimerSet t slot)

def addInboundCall (number : List Char) : Modem :=
  match m.allocCall with
  | none => m
  | some (slot, m) => m.modify slot fun c =>
      { c with
        state := .incoming
        mode := .voice
        isRemote := isRemoteNumber number
        number := number.take numberMaxSize }

def callSetState (slot : Nat) (state : CallState) : Modem :=
  m.modify slot fun c => { c with state := state }

def updateCall (number : List Char) (state : CallState) : Modem :=
  match m.findCallByNumber number with
  | none => m
  | some nn => callSetState m nn state

def disconnectCall (number : List Char) : Except Fault Modem :=
  match m.findCallByNumber number with
  | none => .ok m
  | some nn => m.freeCall nn

def mapStates (f : VoiceCall → CallState) : Modem :=
  { m with calls := fun k => if k < m.callCount then { m.calls k with state := f (m.calls k) } else m.calls k }

def handleAnswer (cmd : List Char) : Except Fault Modem :=
  match cmd.head? with
  | some 'A' => .ok (mapStates m fun c =>
      if c.state = .incoming then .active else if c.state = .active then .held else c.state)
  | some 'H' =>
    match (range m.callCount).find? fun nn => (m.calls nn).state == .incoming with
    | some nn => m.freeCall nn
    | none => .ok m
  | _ => .ok m

/-- The loops of `handleHangup` that free calls, with `n` calls to go from slot `nn` on: a call
that is freed makes room for the next one, which is looked at in the same slot. -/
def releaseLoop (release : VoiceCall → Bool) (state : VoiceCall → CallState) : Nat → Nat → Modem → Except Fault Modem
  | 0, _, m => .ok m
  | n + 1, nn, m =>
    let c := m.calls nn
    if c.mode ≠ .voice then releaseLoop release state n (nn + 1) m
    else if release c then do
      let m ← m.freeCall nn
      releaseLoop release state n nn m
    else releaseLoop release state n (nn + 1) (callSetState m nn (state c))

def releasedHeld (c : VoiceCall) : Bool :=
  c.state == .held || c.state == .waiting || c.state == .incoming

def releasedActive (c : VoiceCall) : Bool := c.state == .active

def acceptHeld (c : VoiceCall) : CallState :=
  if c.state = .held ∨ c.state = .waiting then .active else c.state

def acceptFirstHeld : Modem :=
  match (range m.callCount).find? fun nn =>
      (m.calls nn).mode == .voice && (m.calls nn).state == .held with
  | some nn => callSetState m nn .active
  | none => m

/-- `handleHangup`, on the command without its `+CHLD=`; a command without it is refused. -/
def handleHangup (cmd : List Char) : Except Fault Modem :=
  match cmd with
  | '0' :: _ => releaseLoop releasedHeld (·.state) m.callCount 0 m
  | ['1'] => releaseLoop releasedActive acceptHeld m.callCount 0 m
  | '1' :: c :: _ =>
    match m.findCall ((c.toNat : Int) - 48) with
    | some nn => m.freeCall nn
    | none => .ok m
  | ['2'] => .ok (mapStates m fun c =>
      if c.mode ≠ .voice then c.state else if c.state = .active then .held else acceptHeld c)
  | '2' :: c :: _ => .ok (mapStates m fun call =>
      if call.mode = .voice ∧ call.state = .active ∧ call.id ≠ (c.toNat : Int) - 48 then .held
      else call.state)
  | '3' :: _ | '4' :: _ => .ok (acceptFirstHeld m)
  | _ => .ok m

def voiceCallEvent (slot : Nat) (dialled : Bool) : Except Fault Modem :=
  let c := m.calls slot
  match c.state with
  | .dialing =>
    let m := m.modify slot fun c => { c with state := .alerting }
    if c.isRemote then
      if dialled then .ok m else m.freeCall slot
    else match c.timer with
      | some t => .ok (m.sysTimerSet t slot)
      | none => .error .noTimer
  | .alerting => .ok (m.modify slot fun c => { c with state := .active })
  | _ => .error .unreachableState

def fire (t : TimerId) (dialled : Bool) : Except Fault Modem :=
  match m.armed t with
  | none => .ok m
  | some a => voiceCallEvent { m with armed := update m.armed t none } a.slot dialled

end Handlers

/-- What can happen to the calls. -/
inductive Op
  | dial (cmd : List Char)
  | answer (cmd : List Char)
  | hangup (cmd : List Char)
  | addInbound (number : List Char)
  | update (number : List Char) (state : CallState)
  | disconnect (number : List Char)
  | fire (t : TimerId) (dialled : Bool)
  deriving DecidableEq, Repr

def step (isRemoteNumber : List Char → Bool) (m : Modem) : Op → Except Fault Modem
  | .dial cmd => handleDial isRemoteNumber m cmd
  | .answer cmd => handleAnswer m cmd
  | .hangup cmd => handleHangup m cmd
  | .addInbound number => .ok (addInboundCall isRemoteNumber m number)
  | .update number state => .ok (updateCall m number state)
  | .disconnect number => disconnectCall m number
  | .fire t dialled => fire m t dialled

/-- A fresh modem: static storage is zero, and every timer is free. -/
def freshModem : Modem where
  calls := fun _ => ⟨0, .active, .voice, [], none, false, 0⟩
  callCount := 0
  freeTimers := range maxTimers
  armed := fun _ => none
  owner := fun _ => 0
  nextTag := 0

end GemDroid.Telephony
