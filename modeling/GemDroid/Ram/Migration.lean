import Mathlib.Algebra.Ring.Int.Defs
import Mathlib.Algebra.Ring.Nat
import Mathlib.Data.List.Sort

/-! Migration of RAM, `arch_init.c`.

The sender goes around its RAM blocks and sends the pages that are dirty, in stages; the guest
writes between stages and makes pages dirty. A page of one repeated byte is sent as that byte.
A record names its block unless the page before was of the same one. The receiver reads one
section for each stage. Host memory is a function of host addresses, and a block of RAM is a
range of them. Bytes are numbers below 256, and names are C strings without the final zero. -/
namespace GemDroid.Ram
open List

structure Block where
  idstr : List Nat
  offset : Nat
  length : Nat
  host : Nat
  deriving DecidableEq, Repr

/-- How sending goes wrong: a null pointer is followed, or a loop does not end. -/
inductive Fault
  /-- There is no block. -/
  | nullBlock
  /-- `last_block` is NULL. -/
  | nullLastBlock
  | endless
  deriving DecidableEq, Repr

/-- The flags of a record, which are bits of its page offset. -/
def flagCompress : Nat := 0x02

def flagMemSize : Nat := 0x04

def flagPage : Nat := 0x08

def flagEos : Nat := 0x10

def flagContinue : Nat := 0x20

/-! ### The stream -/

def putBe64 (v : Nat) : List Nat :=
  [v / 256 ^ 7 % 256, v / 256 ^ 6 % 256, v / 256 ^ 5 % 256, v / 256 ^ 4 % 256, v / 256 ^ 3 % 256,
    v / 256 ^ 2 % 256, v / 256 % 256, v % 256]

def putName (idstr : List Nat) : List Nat := idstr.length :: idstr

/-! ### The sender -/

/-- The sender: its blocks, host memory, the dirty bits for migration, and where the last scan
ended. A block is named by its place in the list. -/
structure Sender where
  blocks : List Block
  mem : Nat → Nat
  dirty : Nat → Bool
  lastBlock : Option Nat
  lastOffset : Nat

section Sender
-- `TARGET_PAGE_SIZE`
variable (pageSize : Nat)

def isDupPage (page : Nat → Nat) (ch : Nat) : Bool :=
  (range (pageSize / 4)).all fun i => (range 4).all fun j => decide (page (4 * i + j) = ch)

namespace Sender

/-- The page behind the one at `offset` of a block, going around. -/
def advance (s : Sender) (at' : Nat × Nat) : Nat × Nat :=
  match s.blocks[at'.1]? with
  | none => at'
  | some block =>
    if at'.2 + pageSize ≥ block.length then (if at'.1 + 1 < s.blocks.length then at'.1 + 1 else 0, 0)
    else (at'.1, at'.2 + pageSize)

def address (s : Sender) (at' : Nat × Nat) : Option Nat := s.blocks[at'.1]?.map fun block => block.offset + at'.2

/-- The loop of `ram_save_block`: whether a dirty page is found, and where the scan ends. -/
def scan (s : Sender) : Nat → Nat × Nat → Except Fault (Bool × Nat × Nat)
  | 0, _ => .error .endless
  | fuel + 1, at' =>
    match s.address at' with
    | none => .error .nullBlock
    | some currentAddr =>
      if s.dirty (currentAddr / pageSize) then .ok (true, at')
      else
        let next := s.advance pageSize at'
        match s.address next, s.lastBlock with
        | none, _ => .error .nullBlock
        | _, none => .error .nullLastBlock
        | some nextAddr, some last =>
          if some nextAddr = s.address (last, s.lastOffset) then .ok (false, next)
          else scan s fuel next

def pageCount (s : Sender) : Nat := (s.blocks.map fun block => block.length / pageSize).sum

/-- What is sent for a page, and the number of bytes that counts as. -/
def pageRecord (s : Sender) (block : Block) (cont : Bool) (offset : Nat) : List Nat × Nat :=
  let p := fun i => s.mem (block.host + offset + i)
  let flags := if cont then flagContinue else 0
  let name := if cont then [] else putName block.idstr
  if isDupPage pageSize p (p 0) then (putBe64 (offset + flags + flagCompress) ++ name ++ [p 0], 1)
  else (putBe64 (offset + flags + flagPage) ++ name ++ (range pageSize).map p, pageSize)

def ramSaveBlock (s : Sender) : Except Fault (Sender × List Nat × Nat) := do
  let (found, i, offset) ← s.scan pageSize (s.pageCount pageSize + 1) (s.lastBlock.getD 0, s.lastOffset)
  match s.blocks[i]? with
  | none => .error .nullBlock
  | some block =>
    let s' := { s with lastBlock := some i, lastOffset := offset }
    if found then
      let (bytes, sent) := s.pageRecord pageSize block (decide (s.lastBlock = some i)) offset
      let page := (block.offset + offset) / pageSize
      .ok ({ s' with dirty := fun n => if n = page then false else s.dirty n }, bytes, sent)
    else .ok (s', [], 0)

/-- The loop that ends when the rate limit is reached, after some number of rounds. -/
def saveSome : Nat → Sender → Except Fault (Sender × List Nat)
  | 0, s => .ok (s, [])
  | n + 1, s => do
    let (s, bytes, sent) ← s.ramSaveBlock pageSize
    if sent = 0 then .ok (s, bytes)
    else do
      let (s, more) ← saveSome n s
      .ok (s, bytes ++ more)

/-- The loop that ends when no page is left. -/
def saveAll : Nat → Sender → Except Fault (Sender × List Nat)
  | 0, _ => .error .endless
  | n + 1, s => do
    let (s, bytes, sent) ← s.ramSaveBlock pageSize
    if sent = 0 then .ok (s, bytes)
    else do
      let (s, more) ← saveAll n s
      .ok (s, bytes ++ more)

def pages (s : Sender) : List Nat :=
  s.blocks.flatMap fun block => (range (block.length / pageSize)).map fun k => block.offset / pageSize + k

def ramSaveRemaining (s : Sender) : Nat := (s.pages pageSize).countP fun page => s.dirty page

def ramBytesTotal (s : Sender) : Nat := (s.blocks.map fun block => block.length).sum

/-- Stage 1 up to the loop: the blocks are sorted (`sort_ram_list`), every page is made dirty,
and the blocks are announced. -/
def setup (s : Sender) : Sender × List Nat :=
  let s := { s with
    lastBlock := none
    lastOffset := 0
    blocks := s.blocks.insertionSort fun a b => a.offset ≤ b.offset }
  let s := { s with dirty := fun n => decide (n ∈ s.pages pageSize) || s.dirty n }
  (s, putBe64 (s.ramBytesTotal + flagMemSize) ++
    s.blocks.flatMap fun block => putName block.idstr ++ putBe64 block.length)

/-- `ram_save_live` in stage 1, with the rounds the rate limit allows. -/
def stage1 (s : Sender) (rounds : Nat) : Except Fault (Sender × List Nat) := do
  let (s', bytes) ← (s.setup pageSize).1.saveSome pageSize rounds
  .ok (s', (s.setup pageSize).2 ++ bytes ++ putBe64 flagEos)

def stage2 (s : Sender) (rounds : Nat) : Except Fault (Sender × List Nat) := do
  let (s, bytes) ← s.saveSome pageSize rounds
  .ok (s, bytes ++ putBe64 flagEos)

def stage3 (s : Sender) (rounds : Nat) : Except Fault (Sender × List Nat) := do
  let (s, bytes) ← s.saveSome pageSize rounds
  let (s, rest) ← s.saveAll pageSize (s.ramSaveRemaining pageSize + 1)
  .ok (s, bytes ++ rest ++ putBe64 flagEos)

def write (s : Sender) (i offset value : Nat) : Sender :=
  match s.blocks[i]? with
  | none => s
  | some block =>
    if offset < block.length then
      { s with
        mem := fun a => if a = block.host + offset then value else s.mem a
        dirty := fun n => if n = (block.offset + offset) / pageSize then true else s.dirty n }
    else s

end Sender

end Sender

/-- What happens between the first stage and the last. -/
inductive Event
  | write (i offset value : Nat)
  | stage2 (rounds : Nat)
  deriving DecidableEq, Repr

namespace Sender
variable (pageSize : Nat)

def events (s : Sender) : List Event → Except Fault (Sender × List (List Nat))
  | [] => .ok (s, [])
  | .write i offset value :: rest => (s.write pageSize i offset value).events rest
  | .stage2 rounds :: rest => do
    let (s, bytes) ← s.stage2 pageSize rounds
    let (s, more) ← s.events rest
    .ok (s, bytes :: more)

def migrate (s : Sender) (rounds₁ : Nat) (evs : List Event) (rounds₃ : Nat) :
    Except Fault (Sender × List (List Nat)) := do
  let (s, first) ← s.stage1 pageSize rounds₁
  let (s, middle) ← s.events pageSize evs
  let (s, last) ← s.stage3 pageSize rounds₃
  .ok (s, first :: middle ++ [last])

end Sender

/-! ### The receiver -/

inductive LoadError
  /-- The stream is over. -/
  | eof
  /-- `-EINVAL` -/
  | inval
  /-- A page is loaded to NULL. -/
  | nullHost
  | endless
  deriving DecidableEq, Repr

/-- The receiver: its blocks and memory, and the static variable `block`. -/
structure Receiver where
  blocks : List Block
  mem : Nat → Nat
  block : Option Nat

def getByte : List Nat → Except LoadError (Nat × List Nat)
  | [] => .error .eof
  | b :: f => .ok (b, f)

def getBuffer (n : Nat) (f : List Nat) : Except LoadError (List Nat × List Nat) :=
  if f.length < n then .error .eof else .ok (f.take n, f.drop n)

def getBe64 (f : List Nat) : Except LoadError (Nat × List Nat) := do
  let (bytes, f) ← getBuffer 8 f
  .ok (bytes.foldl (fun v b => 256 * v + b) 0, f)

def getName (f : List Nat) : Except LoadError (List Nat × List Nat) := do
  let (len, f) ← getByte f
  let (id, f) ← getBuffer len f
  .ok (id.takeWhile fun b => decide (b ≠ 0), f)

namespace Receiver
variable (pageSize hostPageSize : Nat)

def hostFromStreamOffset (r : Receiver) (offset : Nat) (cont : Bool) (f : List Nat) :
    Except LoadError (Receiver × Option Nat × List Nat) :=
  if cont then .ok (r, (r.block.bind fun i => r.blocks[i]?).map fun block => block.host + offset, f)
  else do
    let (id, f) ← getName f
    let i := r.blocks.findIdx? fun block => decide (block.idstr = id)
    .ok ({ r with block := i }, (i.bind fun i => r.blocks[i]?).map fun block => block.host + offset, f)

def checkBlocks (r : Receiver) : Nat → Nat → List Nat → Except LoadError (List Nat)
  | 0, _, _ => .error .endless
  | fuel + 1, total, f =>
    if total = 0 then .ok f
    else do
      let (id, f) ← getName f
      let (length, f) ← getBe64 f
      match r.blocks.find? fun block => decide (block.idstr = id) with
      | none => .error .inval
      | some block =>
        if block.length ≠ length then .error .inval
        else r.checkBlocks fuel ((total + 2 ^ 64 - length) % 2 ^ 64) f

def memset (r : Receiver) (host ch : Nat) : Receiver :=
  { r with mem := fun a => if host ≤ a ∧ a < host + pageSize then ch else r.mem a }

def discarded : Nat := (pageSize + hostPageSize - 1) / hostPageSize * hostPageSize

/-- `qemu_madvise` with `QEMU_MADV_DONTNEED`: whole host pages become zero. An address inside
a host page is refused. -/
def madvise (r : Receiver) (host : Nat) : Receiver :=
  if host % hostPageSize = 0 then
    { r with mem := fun a => if host ≤ a ∧ a < host + discarded pageSize hostPageSize then 0 else r.mem a }
  else r

/-- One round of the loop of `ram_load`, for version 3; whether it is the last. -/
def loadRecord (r : Receiver) (f : List Nat) : Except LoadError (Receiver × List Nat × Bool) := do
  let (addr, f) ← getBe64 f
  let flags := addr % pageSize
  let addr := addr / pageSize * pageSize
  let cont := decide (flags / flagContinue % 2 = 1)
  let eos := decide (flags / flagEos % 2 = 1)
  if flags / flagMemSize % 2 = 1 then do
    let f ← r.checkBlocks (f.length + 1) addr f
    .ok (r, f, eos)
  else if flags / flagCompress % 2 = 1 then do
    let (r, host, f) ← r.hostFromStreamOffset addr cont f
    match host with
    | none => .error .inval
    | some host =>
      let (ch, f) ← getByte f
      let r := r.memset pageSize host ch
      .ok (if ch = 0 then r.madvise pageSize hostPageSize host else r, f, eos)
  else if flags / flagPage % 2 = 1 then do
    let (r, host, f) ← r.hostFromStreamOffset addr cont f
    match host with
    | none => .error .nullHost
    | some host =>
      let (page, f) ← getBuffer pageSize f
      .ok ({ r with
        mem := fun a => if host ≤ a ∧ a < host + pageSize then page.getD (a - host) 0 else r.mem a }, f, eos)
  else .ok (r, f, eos)

def loadLoop : Nat → Receiver → List Nat → Except LoadError (Receiver × List Nat)
  | 0, _, _ => .error .endless
  | fuel + 1, r, f => do
    let (r, f, eos) ← r.loadRecord pageSize hostPageSize f
    if eos then .ok (r, f) else loadLoop fuel r f

/-- `ram_load` of a section. Every record takes a byte at least. -/
def ramLoad (r : Receiver) (f : List Nat) : Except LoadError (Receiver × List Nat) :=
  loadLoop pageSize hostPageSize (f.length + 1) r f

/-- The sections of a migration, one after the other; each is read to its end. -/
def ramLoadAll (r : Receiver) : List (List Nat) → Except LoadError Receiver
  | [] => .ok r
  | f :: rest => do
    let (r, left) ← r.ramLoad pageSize hostPageSize f
    if left = [] then r.ramLoadAll rest else .error .inval

end Receiver

end GemDroid.Ram
