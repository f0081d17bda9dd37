import GemDroid.Lib.LinkPath

/-! The goldfish pipe device (`hw/android/goldfish/pipe.c`).

Pipes are on two lists at once: `next` links the pipes of the device, `next_waked` those that are
signalled to the guest. The guest opens, uses and closes pipes through the registers; the host
wakes and closes them at any time, from callbacks of a command as well. What a callback does to
the device is known only by the calls it makes. -/
namespace GemDroid.Goldfish
open Lib.LinkPath Function

/-! ### Pipes -/

/-- Where a pointer to a pipe is: the head of a list, or the link of a pipe. -/
inductive Cell where
  | head
  | link (p : Nat)
  deriving DecidableEq, Repr

/-- A `Pipe` without its links; `peer` is what `service`, `funcs`, `opaque` and `args` are about. -/
structure Pipe (P : Type) where
  channel : BitVec 64
  wanted : BitVec 8
  closed : BitVec 8
  peer : P
  deriving DecidableEq, Repr

/-- `PipeDevice`, with the links of the pipes, the open pipes by address, and the level of its line. -/
structure PipeDevice (P : Type) where
  pipes : Cell → Option Nat
  signaledPipes : Cell → Option Nat
  pipe : Nat → Option (Pipe P)
  irq : Bool
  address : BitVec 64
  size : BitVec 32
  status : BitVec 32
  channel : BitVec 64
  wakes : BitVec 32
  paramsAddr : BitVec 64

/-- What is not done: a walk that does not end, a call on a pipe that is not open, and memory that
is in use already. -/
inductive Fault where
  | hang
  | notOpen
  | inUse
  deriving DecidableEq, Repr

inductive HostCall where
  | wake (p : Nat) (flags : BitVec 32)
  | close (p : Nat)
  deriving DecidableEq, Repr

/-- What happens around a command: the address of a new pipe and its connector, and what a callback
returns, leaves as the peer, and calls. -/
structure Outcome (P : Type) where
  fresh : Nat
  connector : P
  status : BitVec 32
  peer : P
  calls : List HostCall

structure AccessParams where
  channel : BitVec 64
  size : BitVec 32
  address : BitVec 64
  cmd : Nat

def pipeWakeClosed : BitVec 32 := 1
def pipeWakeRead : BitVec 8 := 2
def pipeWakeWrite : BitVec 8 := 4
def pipeErrorInval : BitVec 32 := -1
def pipeErrorIo : BitVec 32 := -4

def pipeCmdOpen : Nat := 1
def pipeCmdClose : Nat := 2
def pipeCmdPoll : Nat := 3
def pipeCmdWriteBuffer : Nat := 4
def pipeCmdWakeOnWrite : Nat := 5
def pipeCmdReadBuffer : Nat := 6
def pipeCmdWakeOnRead : Nat := 7

def pipeRegCommand : Nat := 0x00
def pipeRegStatus : Nat := 0x04
def pipeRegChannel : Nat := 0x08
def pipeRegSize : Nat := 0x0c
def pipeRegAddress : Nat := 0x10
def pipeRegWakes : Nat := 0x14
def pipeRegParamsAddrLow : Nat := 0x18
def pipeRegParamsAddrHigh : Nat := 0x1c
def pipeRegAccessParams : Nat := 0x20
def pipeRegChannelHigh : Nat := 0x30
def pipeRegAddressHigh : Nat := 0x34

def uint64SetLow (addr : BitVec 64) (value : BitVec 32) : BitVec 64 :=
  (addr &&& ~~~0xffffffff#64) ||| value.setWidth 64

def uint64SetHigh (addr : BitVec 64) (value : BitVec 32) : BitVec 64 :=
  (addr &&& 0xffffffff#64) ||| value.setWidth 64 <<< 32

/-- `pipe_list_findp_channel` and `pipe_list_findp_waked`: the cell that holds the pipe, none if the
walk ends at NULL. -/
def findp (fuel : Nat) (list : Cell → Option Nat) (hit : Nat → Bool) : Except Fault (Option Cell) :=
  match findCell list Cell.link hit fuel .head with
  | .ok c => .ok (some c)
  | .error .null => .ok none
  | .error .fuel => .error .hang

def prepend (list : Cell → Option Nat) (p : Nat) : Cell → Option Nat :=
  update (update list (.link p) (list .head)) .head (some p)

def unlink (list : Cell → Option Nat) (lookup : Cell) (p : Nat) : Cell → Option Nat :=
  update (update list lookup (list (.link p))) (.link p) none

namespace PipeDevice
variable {P : Type} (fuel : Nat) (d : PipeDevice P)

def init : PipeDevice P := ⟨fun _ => none, fun _ => none, fun _ => none, false, 0, 0, 0, 0, 0, 0⟩

def setPipe (p : Nat) (pipe : Pipe P) : PipeDevice P := { d with pipe := update d.pipe p (some pipe) }

/-! ### Calls of the host -/

def wake (p : Nat) (flags : BitVec 32) : Except Fault (PipeDevice P) := do
  match d.pipe p with
  | none => .error .notOpen
  | some pipe =>
    let signaledPipes ← match ← findp fuel d.signaledPipes (· == p) with
      | none => pure (prepend d.signaledPipes p)
      | some _ => pure d.signaledPipes
    let d := { d with signaledPipes, irq := true }
    pure (d.setPipe p { pipe with wanted := pipe.wanted ||| flags.setWidth 8 })

def close (p : Nat) : Except Fault (PipeDevice P) :=
  match d.pipe p with
  | none => .error .notOpen
  | some pipe =>
    if pipe.closed = 0 then wake fuel (d.setPipe p { pipe with closed := 1 }) p pipeWakeClosed
    else .ok d

def hostCall : HostCall → Except Fault (PipeDevice P)
  | .wake p flags => d.wake fuel p flags
  | .close p => d.close fuel p

def hostCalls : PipeDevice P → List HostCall → Except Fault (PipeDevice P)
  | d, [] => .ok d
  | d, call :: calls => do hostCalls (← d.hostCall fuel call) calls

/-! ### The guest -/

def callback (p : Nat) (out : Outcome P) : Except Fault (PipeDevice P) := do
  let d ← hostCalls fuel d out.calls
  match d.pipe p with
  | none => .error .notOpen
  | some pipe => pure (d.setPipe p { pipe with peer := out.peer })

def openPipe (out : Outcome P) : Except Fault (PipeDevice P) :=
  if (d.pipe out.fresh).isSome then .error .inUse
  else
    let d := d.setPipe out.fresh ⟨d.channel, 0, 0, out.connector⟩
    -- `ANEW0` clears the links of the new pipe
    .ok { d with
      pipes := prepend d.pipes out.fresh
      signaledPipes := update d.signaledPipes (.link out.fresh) none
      status := 0 }

def removeWaked (p : Nat) : Except Fault (PipeDevice P) := do
  match ← findp fuel d.signaledPipes (· == p) with
  | none => pure d
  | some lookup => pure { d with signaledPipes := unlink d.signaledPipes lookup p }

/-- `PIPE_CMD_CLOSE` on the pipe `p`, found in `lookup`. The pipe is no longer open when its `close`
callback makes calls. -/
def closeFromGuest (lookup : Cell) (p : Nat) (out : Outcome P) : Except Fault (PipeDevice P) := do
  let d := { d with pipes := unlink d.pipes lookup p }
  let d ← d.removeWaked fuel p
  hostCalls fuel { d with pipe := update d.pipe p none } out.calls

def wakeOn (p : Nat) (pipe : Pipe P) (flag : BitVec 8) (out : Outcome P) : Except Fault (PipeDevice P) := do
  let d ← if pipe.wanted &&& flag = 0 then
      (d.setPipe p { pipe with wanted := pipe.wanted ||| flag }).callback fuel p out
    else pure d
  pure { d with status := 0 }

def doCommand (command : Nat) (out : Outcome P) : Except Fault (PipeDevice P) := do
  match ← findp fuel d.pipes (fun p => (d.pipe p).any fun pipe => pipe.channel == d.channel) with
  | none => if command = pipeCmdOpen then d.openPipe out else pure { d with status := pipeErrorInval }
  | some lookup =>
    match d.pipes lookup with
    | none => .error .notOpen
    | some p =>
      match d.pipe p with
      | none => .error .notOpen
      | some pipe =>
        if pipe.closed ≠ 0 ∧ command ≠ pipeCmdClose then pure { d with status := pipeErrorIo }
        else if command = pipeCmdOpen then pure { d with status := pipeErrorInval }
        else if command = pipeCmdClose then d.closeFromGuest fuel lookup p out
        else if command = pipeCmdPoll ∨ command = pipeCmdReadBuffer ∨ command = pipeCmdWriteBuffer then do
          let d ← d.callback fuel p out
          pure { d with status := out.status }
        else if command = pipeCmdWakeOnRead then d.wakeOn fuel p pipe pipeWakeRead out
        else if command = pipeCmdWakeOnWrite then d.wakeOn fuel p pipe pipeWakeWrite out
        else pure d

def setRegister (offset : Nat) (value : BitVec 32) : PipeDevice P :=
  if offset = pipeRegSize then { d with size := value }
  else if offset = pipeRegAddress then { d with address := uint64SetLow d.address value }
  else if offset = pipeRegAddressHigh then { d with address := uint64SetHigh d.address value }
  else if offset = pipeRegChannel then { d with channel := uint64SetLow d.channel value }
  else if offset = pipeRegChannelHigh then { d with channel := uint64SetHigh d.channel value }
  else if offset = pipeRegParamsAddrHigh then { d with paramsAddr := uint64SetHigh d.paramsAddr value }
  else if offset = pipeRegParamsAddrLow then { d with paramsAddr := uint64SetLow d.paramsAddr value }
  else d

/-- A write to `PIPE_REG_ACCESS_PARAMS`: a command with its registers, from memory. -/
def accessParams (aps : AccessParams) (out : Outcome P) : Except Fault (PipeDevice P) :=
  if d.paramsAddr = 0 then .ok d
  else
    let d := { d with channel := aps.channel, size := aps.size, address := aps.address }
    if aps.cmd ≠ pipeCmdReadBuffer ∧ aps.cmd ≠ pipeCmdWriteBuffer then .ok d
    else d.doCommand fuel aps.cmd out

def write (offset : Nat) (value : BitVec 32) (aps : AccessParams) (out : Outcome P) : Except Fault (PipeDevice P) :=
  if offset = pipeRegCommand then d.doCommand fuel value.toNat out
  else if offset = pipeRegAccessParams then d.accessParams fuel aps out
  else .ok (d.setRegister offset value)

def read (offset : Nat) : PipeDevice P × BitVec 32 :=
  if offset = pipeRegStatus then (d, d.status)
  else if offset = pipeRegChannel then
    match d.signaledPipes .head with
    | none => (d, 0)
    | some p =>
      match d.pipe p with
      | none => (d, 0)
      | some pipe =>
        let signaledPipes := unlink d.signaledPipes .head p
        let irq := if signaledPipes .head = none then false else d.irq
        ({ d.setPipe p { pipe with wanted := 0 } with signaledPipes, irq, wakes := pipe.wanted.setWidth 32 },
          pipe.channel.setWidth 32)
  else if offset = pipeRegChannelHigh then
    match (d.signaledPipes .head).bind d.pipe with
    | none => (d, 0)
    | some pipe => (d, (pipe.channel >>> 32).setWidth 32)
  else if offset = pipeRegWakes then (d, d.wakes)
  else if offset = pipeRegParamsAddrHigh then (d, (d.paramsAddr >>> 32).setWidth 32)
  else if offset = pipeRegParamsAddrLow then (d, d.paramsAddr.setWidth 32)
  else (d, 0)

end PipeDevice

/-- An access of the guest to a register, or a call of the host. -/
inductive Action (P : Type) where
  | read (offset : Nat)
  | write (offset : Nat) (value : BitVec 32) (aps : AccessParams) (out : Outcome P)
  | host (call : HostCall)

def PipeDevice.act {P : Type} (fuel : Nat) (d : PipeDevice P) : Action P → Except Fault (PipeDevice P)
  | .read offset => .ok (d.read offset).1
  | .write offset value aps out => d.write fuel offset value aps out
  | .host call => d.hostCall fuel call

/-- The action is done: its walks end, and its calls are on open pipes. -/
def Acts {P : Type} (d : PipeDevice P) (a : Action P) (d' : PipeDevice P) : Prop :=
  ∃ n, ∀ fuel, n ≤ fuel → d.act fuel a = .ok d'

end GemDroid.Goldfish
