import GemDroid.Lib.Fallible
import GemDroid.Lib.Reach
import Mathlib.Data.BitVec

/-! The goldfish MMC controller (`hw/android/goldfish/mmc.c`).

A command runs to its end at once and sets bits of `int_status`. Three places drive the
interrupt: the end of a command and a write of `int_enable` pass the enabled bits of
`int_status`, an acknowledgement passes all that remain. -/
namespace GemDroid.Goldfish.Mmc
open Lib BitVec

variable {val : BitVec 32}

/-! ### The model -/

def mmcIntStatus : Nat := 0x00
def mmcIntEnable : Nat := 0x04
def mmcSetBuffer : Nat := 0x08
def mmcCmd : Nat := 0x0C
def mmcArg : Nat := 0x10
def mmcBlockLength : Nat := 0x24
def mmcBlockCount : Nat := 0x28
def mmcSetBufferHigh : Nat := 0x30

def mmcStatEndOfCmd : BitVec 32 := 1
def mmcStatEndOfData : BitVec 32 := 2

def r1ReadyForData : BitVec 32 := 1 <<< 8
def r1AppCmd : BitVec 32 := 1 <<< 5

def setR1CurrentState (s : BitVec 32) : BitVec 32 := (s <<< 9) &&& 0x00001E00

/-- The opcodes that `goldfish_mmc_do_command` handles; it answers any other with zeros. -/
inductive Opcode where
  | mmcSendCsd
  | mmcSendExtCsd
  | mmcAppCmd
  | sdAppOpCond
  | sdAppSendScr
  | mmcSetRelativeAddr
  | mmcAllSendCid
  | mmcSelectCard
  | mmcSwitch
  | mmcSetBlocklen
  | mmcReadSingleBlock
  | mmcReadMultipleBlock
  | mmcWriteBlock
  | mmcWriteMultipleBlock
  | mmcStopTransmission
  | mmcSendStatus
  | other
deriving DecidableEq, Repr

variable {opcode : Opcode}

def opcodeNumbers : List (Nat × Opcode) :=
  [(9, .mmcSendCsd), (8, .mmcSendExtCsd), (55, .mmcAppCmd), (41, .sdAppOpCond),
   (51, .sdAppSendScr), (3, .mmcSetRelativeAddr), (2, .mmcAllSendCid), (7, .mmcSelectCard),
   (6, .mmcSwitch), (16, .mmcSetBlocklen), (17, .mmcReadSingleBlock), (18, .mmcReadMultipleBlock),
   (24, .mmcWriteBlock), (25, .mmcWriteMultipleBlock), (12, .mmcStopTransmission), (13, .mmcSendStatus)]

def opcodeOf (n : Nat) : Opcode := (opcodeNumbers.lookup n).getD .other

/-- How the program ends: a division by zero, or a call of `abort` or `cpu_abort`. -/
inductive Fault where
  | division
  | abort
deriving DecidableEq, Repr

/-- What the controller uses: the block device and the guest's memory. -/
structure Board (D M : Type) where
  bdrvGetGeometry : D → Nat
  bdrvRead : D → Nat → Option (List UInt8)
  bdrvWrite : D → Nat → List UInt8 → Option D
  memoryWrite : M → BitVec 64 → List UInt8 → M
  memoryRead : M → BitVec 64 → Nat → List UInt8

structure Resp where
  r0 : BitVec 32
  r1 : BitVec 32
  r2 : BitVec 32
  r3 : BitVec 32
deriving DecidableEq, Repr

/-- The controller, with the level it last passed to `goldfish_device_set_irq`, the
block device and the memory. -/
structure MmcState (D M : Type) where
  bufferAddress : BitVec 64
  intStatus : BitVec 32
  intEnable : BitVec 32
  arg : BitVec 32
  resp : Resp
  blockLength : BitVec 32
  blockCount : BitVec 32
  isSDHC : Bool
  irq : BitVec 32
  bs : D
  memory : M
deriving DecidableEq, Repr

variable {D M : Type} (board : Board D M)

def mmcBdrvRead (bs : D) (memory : M) (sectorNumber : Nat) (dstAddress : BitVec 64) : Nat → M
  | 0 => memory
  | numSectors + 1 =>
    match board.bdrvRead bs sectorNumber with
    | none => memory
    | some buf =>
      mmcBdrvRead bs (board.memoryWrite memory dstAddress buf) (sectorNumber + 1) (dstAddress + 512) numSectors

def mmcBdrvWrite (bs : D) (memory : M) (sectorNumber : Nat) (dstAddress : BitVec 64) : Nat → D
  | 0 => bs
  | numSectors + 1 =>
    match board.bdrvWrite bs sectorNumber (board.memoryRead memory dstAddress 512) with
    | none => bs
    | some bs => mmcBdrvWrite bs memory (sectorNumber + 1) (dstAddress + 512) numSectors

/-- The loop that makes the capacity of a standard card fit into 12 bits: how often it
halves it, and what remains. -/
def csdExponent (capacity : Nat) : Nat × Nat :=
  if 4096 < capacity then
    let (exponent, rest) := csdExponent (capacity / 2)
    (exponent + 1, rest)
  else (0, capacity)

/-- The response to `MMC_SEND_CSD` for a device of so many sectors, and whether it is
an SDHC card. A size that is refused ends the program. -/
def sendCsd (sectorCount : Nat) : Except Fault (Resp × Bool) :=
  let capacity := sectorCount * 512 % 2 ^ 64
  if capacity > 2147483648 then
    let m := BitVec.ofNat 32 (capacity / (512 * 1024)) - 1
    if m &&& 0xFFC00000 ≠ 0 then .error .abort
    else .ok (⟨0x0A4040DF, 0x00007F80 ||| ((m &&& 0x0000FFFF) <<< 16), 0x5B590000 ||| (m >>> 16), 0x400E0032⟩, true)
  else
    let (exponent, rest) := csdExponent (capacity / 1024)
    if exponent < 2 ∨ 7 < exponent - 2 then .error .abort
    else
      let rest := BitVec.ofNat 32 (rest - 1)
      .ok (⟨0x928040CB, 0x3EF84FFF ||| ((rest &&& 3) <<< 30) ||| (BitVec.ofNat 32 (exponent - 2) <<< (47 - 32)),
        0x5F5A8000 ||| ((rest >>> 2) &&& 0x3FF), 0x00260032⟩, false)

/-- The sector at which a transfer starts. -/
def firstSector (s : MmcState D M) (arg : BitVec 32) : Except Fault Nat :=
  if s.isSDHC then .ok arg.toNat
  else if s.blockLength = 0 then .error .division
  else .ok (arg / s.blockLength).toNat

def numSectors (s : MmcState D M) : Nat := s.blockCount.toInt.toNat

def readBlocks (s : MmcState D M) (arg : BitVec 32) : Except Fault (MmcState D M) :=
  (firstSector s arg).map fun sector =>
    { s with
      memory := mmcBdrvRead board s.bs s.memory sector s.bufferAddress (numSectors s)
      resp := ⟨setR1CurrentState 4 ||| r1ReadyForData, 0, 0, 0⟩ }

def writeBlocks (s : MmcState D M) (arg : BitVec 32) : Except Fault (MmcState D M) :=
  (firstSector s arg).map fun sector =>
    { s with
      bs := mmcBdrvWrite board s.bs s.memory sector s.bufferAddress (numSectors s)
      resp := ⟨setR1CurrentState 4 ||| r1ReadyForData, 0, 0, 0⟩ }

def answer (s : MmcState D M) (r0 : BitVec 32) : MmcState D M := { s with resp := ⟨r0, 0, 0, 0⟩ }

/-- The `switch` of `goldfish_mmc_do_command`: the state after it and the bits that are
set in `new_status`. -/
def mmcOpcode (s : MmcState D M) (opcode : Opcode) (arg : BitVec 32) : Except Fault (MmcState D M × BitVec 32) :=
  let endOfCmd := mmcStatEndOfCmd
  let endOfData := mmcStatEndOfCmd ||| mmcStatEndOfData
  let appCmd := setR1CurrentState 4 ||| r1ReadyForData ||| r1AppCmd
  match opcode with
  | .mmcSendCsd => (sendCsd (board.bdrvGetGeometry s.bs)).map fun csd => ({ s with resp := csd.1, isSDHC := csd.2 }, endOfCmd)
  | .mmcSendExtCsd => .ok (answer s arg, endOfCmd)
  | .mmcAppCmd => .ok (answer s appCmd, endOfCmd)
  | .sdAppOpCond => .ok (answer s 0x80FF8000, endOfCmd)
  | .sdAppSendScr =>
    let scr := [0x02, 0x25, 0, 0, 0, 0, 0, 0]
    .ok (answer { s with memory := board.memoryWrite s.memory s.bufferAddress scr } appCmd, endOfData)
  | .mmcSetRelativeAddr => .ok (answer s (-518519520), endOfCmd)
  | .mmcAllSendCid =>
    let cid : Resp := ⟨-436179883, -2147479692, 1429221959, 55788627⟩
    .ok ({ s with resp := cid }, endOfCmd)
  | .mmcSelectCard => .ok (answer s (setR1CurrentState 3 ||| r1ReadyForData), endOfCmd)
  | .mmcSwitch =>
    if arg = 0x00FFFFF1 ∨ arg = 0x80FFFFF1 then
      let buff0 := (List.replicate 64 0).set 13 2
      .ok (answer { s with memory := board.memoryWrite s.memory s.bufferAddress buff0 } appCmd, endOfData)
    else .ok (answer s appCmd, endOfCmd)
  | .mmcSetBlocklen => .ok (answer { s with blockLength := arg } (setR1CurrentState 4 ||| r1ReadyForData), endOfCmd)
  | .mmcReadSingleBlock => (readBlocks board { s with blockCount := 1 } arg).map (·, endOfData)
  | .mmcReadMultipleBlock => (readBlocks board s arg).map (·, endOfData)
  | .mmcWriteBlock => (writeBlocks board { s with blockCount := 1 } arg).map (·, endOfData)
  | .mmcWriteMultipleBlock => (writeBlocks board s arg).map (·, endOfData)
  | .mmcStopTransmission => .ok (answer s (setR1CurrentState 5 ||| r1ReadyForData), endOfCmd)
  | .mmcSendStatus => .ok (answer s (setR1CurrentState 4 ||| r1ReadyForData), endOfCmd)
  | .other => .ok (answer s 0, endOfCmd)

def endCommand (s : MmcState D M) (newStatus : BitVec 32) : MmcState D M :=
  let s := { s with intStatus := s.intStatus ||| newStatus }
  if s.intStatus &&& s.intEnable ≠ 0 then { s with irq := s.intStatus &&& s.intEnable } else s

def mmcDoCommand (s : MmcState D M) (cmd arg : BitVec 32) : Except Fault (MmcState D M) :=
  (mmcOpcode board s (opcodeOf (cmd &&& 63).toNat) arg).map fun r => endCommand r.1 r.2

def uint64SetLow (addr : BitVec 64) (value : BitVec 32) : BitVec 64 :=
  (addr &&& ~~~0xFFFFFFFF) ||| value.setWidth 64

def uint64SetHigh (addr : BitVec 64) (value : BitVec 32) : BitVec 64 :=
  (addr &&& 0xFFFFFFFF) ||| (value.setWidth 64 <<< 32)

def mmcWrite (s : MmcState D M) (offset : Nat) (val : BitVec 32) : Except Fault (MmcState D M) :=
  if offset = mmcIntStatus then
    let status := s.intStatus &&& ~~~val
    if status ≠ s.intStatus then .ok { s with intStatus := status, irq := status }
    else .ok { s with intStatus := status }
  else if offset = mmcIntEnable then .ok { s with intEnable := val, intStatus := 0, irq := 0 &&& val }
  else if offset = mmcSetBuffer then .ok { s with bufferAddress := uint64SetLow s.bufferAddress val }
  else if offset = mmcSetBufferHigh then .ok { s with bufferAddress := uint64SetHigh s.bufferAddress val }
  else if offset = mmcCmd then mmcDoCommand board s val s.arg
  else if offset = mmcArg then .ok { s with arg := val }
  else if offset = mmcBlockLength then .ok { s with blockLength := val + 1 }
  else if offset = mmcBlockCount then .ok { s with blockCount := val + 1 }
  else .error .abort

def start (bs : D) (memory : M) : MmcState D M :=
  ⟨0, 0, 0, 0, ⟨0, 0, 0, 0⟩, 0, 0, false, 0, bs, memory⟩

/-! ### The interrupt -/

/-- The line is raised if and only if an enabled bit is set. -/
def Right (s : MmcState D M) : Prop := s.irq ≠ 0 ↔ s.intStatus &&& s.intEnable ≠ 0

/-- An acknowledgement that changes `int_status` leaves no bit or an enabled one. -/
def Meets (s : MmcState D M) (offset : Nat) (val : BitVec 32) : Prop :=
  offset = mmcIntStatus → s.intStatus &&& ~~~val ≠ s.intStatus →
    s.intStatus &&& ~~~val = 0 ∨ s.intStatus &&& ~~~val &&& s.intEnable ≠ 0

/-- The two words and the line are as before. -/
def SameInt (s s' : MmcState D M) : Prop :=
  s'.intStatus = s.intStatus ∧ s'.intEnable = s.intEnable ∧ s'.irq = s.irq

variable {s s' : MmcState D M} {arg : BitVec 32}

theorem SameInt.right (h : SameInt s s') (hright : Right s) : Right s' := by
  rw [Right, h.1, h.2.1, h.2.2]
  exact hright

variable {board}

theorem readBlocks_sameInt (h : readBlocks board s arg = .ok s') : SameInt s s' := by
  obtain ⟨sector, -, rfl⟩ := exists_ok_of_map h
  exact ⟨rfl, rfl, rfl⟩

theorem writeBlocks_sameInt (h : writeBlocks board s arg = .ok s') : SameInt s s' := by
  obtain ⟨sector, -, rfl⟩ := exists_ok_of_map h
  exact ⟨rfl, rfl, rfl⟩

theorem mmcOpcode_sameInt {r : MmcState D M × BitVec 32}
    (h : mmcOpcode board s opcode arg = .ok r) : SameInt s r.1 := by
  cases opcode with
  | mmcSendCsd =>
    simp only [mmcOpcode] at h
    obtain ⟨csd, -, rfl⟩ := exists_ok_of_map h
    exact ⟨rfl, rfl, rfl⟩
  | mmcSwitch =>
    simp only [mmcOpcode] at h
    split at h
    all_goals
      rw [← Except.ok.inj h]
      exact ⟨rfl, rfl, rfl⟩
  | mmcReadSingleBlock | mmcReadMultipleBlock =>
    simp only [mmcOpcode] at h
    obtain ⟨s', hblocks, rfl⟩ := exists_ok_of_map h
    exact (readBlocks_sameInt hblocks :)
  | mmcWriteBlock | mmcWriteMultipleBlock =>
    simp only [mmcOpcode] at h
    obtain ⟨s', hblocks, rfl⟩ := exists_ok_of_map h
    exact (writeBlocks_sameInt hblocks :)
  | _ =>
    simp only [mmcOpcode, Except.ok.injEq] at h
    rw [← h]
    exact ⟨rfl, rfl, rfl⟩

section
variable (h : Right s)
include h

/-- Bits that are added: without an enabled one among them there was none before. -/
theorem endCommand_right (newStatus : BitVec 32) : Right (endCommand s newStatus) := by
  rw [endCommand]
  split
  · rename_i hset
    exact iff_of_true hset hset
  rename_i hclear
  have hzero : (s.intStatus ||| newStatus) &&& s.intEnable = 0 := not_not.mp hclear
  have hbefore : s.intStatus &&& s.intEnable = 0 := by
    apply eq_of_getLsbD_eq
    intro i hi
    have hbit : ((s.intStatus ||| newStatus) &&& s.intEnable).getLsbD i = false := by simp [hzero]
    rw [getLsbD_and, getLsbD_or, Bool.and_eq_false_iff, Bool.or_eq_false_iff] at hbit
    have hkept : (s.intStatus &&& s.intEnable).getLsbD i = false := by
      rw [getLsbD_and]
      exact Bool.and_eq_false_iff.mpr (hbit.imp And.left id)
    simpa using hkept
  have hlow : ¬ s.irq ≠ 0 := fun hirq => h.mp hirq hbefore
  exact iff_of_false hlow hclear

theorem mmcDoCommand_right {cmd : BitVec 32} (hcmd : mmcDoCommand board s cmd arg = .ok s') : Right s' := by
  obtain ⟨r, hop, rfl⟩ := exists_ok_of_map hcmd
  exact endCommand_right ((mmcOpcode_sameInt hop).right h) r.2

theorem mmcWrite_status
    (hwrite : mmcWrite board s mmcIntStatus val = .ok s') : Right s' ↔ Meets s mmcIntStatus val := by
  rw [mmcWrite, if_pos rfl] at hwrite
  by_cases hsame : s.intStatus &&& ~~~val = s.intStatus
  · have hint : SameInt s s' := by
      simp only [hsame, ne_eq, not_true_eq_false, if_false] at hwrite
      rw [← Except.ok.inj hwrite]
      exact ⟨rfl, rfl, rfl⟩
    exact iff_of_true (hint.right h) fun _ hne => absurd hsame hne
  simp only [ne_eq, hsame, not_false_eq_true, if_true] at hwrite
  rw [← Except.ok.inj hwrite]
  -- the line follows the bits that remain, enabled or not
  constructor
  · intro hright _ _
    by_cases hzero : s.intStatus &&& ~~~val = 0
    · exact .inl hzero
    · exact .inr (hright.mp hzero)
  · intro hmeets
    obtain hzero | hset := hmeets rfl hsame
    · apply iff_of_false
      · exact not_not.mpr hzero
      · simp [hzero]
    apply iff_of_true _ hset
    intro (hzero : s.intStatus &&& ~~~val = 0)
    apply hset
    rw [hzero]
    exact zero_and

/-- A write keeps a right line right if and only if it meets the condition. -/
theorem mmcWrite_right_iff {offset : Nat}
    (hwrite : mmcWrite board s offset val = .ok s') : Right s' ↔ Meets s offset val := by
  by_cases hoff : offset = mmcIntStatus
  · subst hoff
    exact mmcWrite_status h hwrite
  apply iff_of_true _ fun heq => absurd heq hoff
  rw [mmcWrite, if_neg hoff] at hwrite
  by_cases henable : offset = mmcIntEnable
  · rw [if_pos henable] at hwrite
    rw [← Except.ok.inj hwrite]
    exact iff_of_false (not_not.mpr zero_and) (not_not.mpr zero_and)
  rw [if_neg henable] at hwrite
  by_cases hcmd : offset = mmcCmd
  · subst hcmd
    exact mmcDoCommand_right h hwrite
  rw [if_neg hcmd] at hwrite
  -- the other registers only store their value
  have hsame : SameInt s s' := by
    split_ifs at hwrite <;> exact Except.ok.inj hwrite ▸ ⟨rfl, rfl, rfl⟩
  exact hsame.right h

end

/-! ### Runs -/

/-- A step: the guest writes a register. -/
def Acts (board : Board D M) (s : MmcState D M) (a : Nat × BitVec 32) (s' : MmcState D M) : Prop :=
  mmcWrite board s a.1 a.2 = .ok s'

def Starts (s : MmcState D M) : Prop := ∃ bs memory, s = start bs memory

/-- In a run whose acknowledgements leave no bit or an enabled one, the line is raised
if and only if an enabled bit is set. -/
theorem interrupt_right {s : MmcState D M}
    (h : Reach Starts (fun s a s' => Meets s a.1 a.2 ∧ Acts board s a s') s) : Right s := by
  apply h.invariant
  · intro s ⟨bs, memory, hs⟩
    rw [hs]
    exact iff_of_false (not_not.mpr rfl) (not_not.mpr zero_and)
  · intro s a s' hright ⟨hmeets, hact⟩
    exact (mmcWrite_right_iff hright hact).mpr hmeets

/-- A device of four sectors and a memory that keeps what is written to it. -/
def smallBoard : Board (List (List UInt8)) (List (BitVec 64 × List UInt8)) where
  bdrvGetGeometry := List.length
  bdrvRead bs sector := bs[sector]?
  bdrvWrite bs sector bytes := if sector < bs.length then some (bs.set sector bytes) else none
  memoryWrite memory address bytes := (address, bytes) :: memory
  memoryRead memory address _ := (memory.lookup address).getD []

def sectors : List (List UInt8) := [10, 11, 12, 13].map (List.replicate 512)

/-- A command that also transfers data is given, with these interrupts enabled. -/
def transferred (enabled : BitVec 32) : MmcState (List (List UInt8)) (List (BitVec 64 × List UInt8)) :=
  { start sectors [(0, [0x02, 0x25, 0, 0, 0, 0, 0, 0])] with
    intStatus := 3, intEnable := enabled, resp := ⟨2336, 0, 0, 0⟩, irq := 3 &&& enabled }

/-- Both interrupts are enabled, and the end of the command is acknowledged: the end of the data is left. -/
theorem acknowledged_right : Right { transferred 3 with intStatus := 2, irq := 2 } := by
  have henabled : Reach Starts (fun s a s' => Meets s a.1 a.2 ∧ Acts smallBoard s a s')
      { start sectors [] with intEnable := 3 } :=
    .step (a := (mmcIntEnable, 3)) (.start ⟨sectors, [], rfl⟩) ⟨fun h => absurd h (by decide), rfl⟩
  have hdata : Reach Starts (fun s a s' => Meets s a.1 a.2 ∧ Acts smallBoard s a s') (transferred 3) :=
    .step (a := (mmcCmd, 51)) henabled ⟨fun h => absurd h (by decide), rfl⟩
  exact interrupt_right (.step (a := (mmcIntStatus, 1)) hdata ⟨fun _ _ => .inr (by decide), rfl⟩)

/-- The guest acknowledges the end of the command: the line stays up for the end of
the data, which is not enabled. -/
theorem acknowledge_raises : ∃ s, Reach Starts (Acts smallBoard) s ∧
    s.irq = 2 ∧ s.intStatus &&& s.intEnable = 0 ∧ ¬ Right s := by
  have henabled : Reach Starts (Acts smallBoard) { start sectors [] with intEnable := 1 } :=
    .step (a := (mmcIntEnable, 1)) (.start ⟨sectors, [], rfl⟩) rfl
  have hdata : Reach Starts (Acts smallBoard) (transferred 1) := .step (a := (mmcCmd, 51)) henabled rfl
  refine ⟨{ transferred 1 with intStatus := 2, irq := 2 }, ?_, rfl, by decide, by rw [Right]; decide⟩
  exact .step (a := (mmcIntStatus, 1)) hdata rfl

/-! ### Block commands -/

/-- Sectors one after the other, each with the next 512 bytes of memory, until one fails. -/
def eachSector {X : Type} (step : X → Nat → BitVec 64 → Option X) : X → BitVec 64 → List Nat → X
  | x, _, [] => x
  | x, address, sector :: sectors =>
    match step x sector address with
    | none => x
    | some x => eachSector step x (address + 512) sectors

def readSector (board : Board D M) (bs : D) (memory : M) (sector : Nat) (address : BitVec 64) : Option M :=
  (board.bdrvRead bs sector).map (board.memoryWrite memory address)

def writeSector (board : Board D M) (memory : M) (bs : D) (sector : Nat) (address : BitVec 64) : Option D :=
  board.bdrvWrite bs sector (board.memoryRead memory address 512)

def reads : Opcode → Bool
  | .mmcReadSingleBlock | .mmcReadMultipleBlock => true
  | _ => false

def blocksOf (s : MmcState D M) : Opcode → Option (BitVec 32)
  | .mmcReadSingleBlock | .mmcWriteBlock => some 1
  | .mmcReadMultipleBlock | .mmcWriteMultipleBlock => some s.blockCount
  | _ => none

/-- The command that a write gives, if it is one of `MMC_CMD`. -/
def commandOf (a : Nat × BitVec 32) : Opcode := if a.1 = mmcCmd then opcodeOf (a.2 &&& 63).toNat else .other

/-- The sectors it is for: the argument counts sectors on an SDHC card, bytes on a standard one. -/
def sectorsOf (s : MmcState D M) (blocks : BitVec 32) : List Nat :=
  List.range' (if s.isSDHC then s.arg.toNat else s.arg.toNat / 512) blocks.toNat

def transfer (board : Board D M) (s : MmcState D M) (opcode : Opcode) (sectors : List Nat) : D × M :=
  if reads opcode then (s.bs, eachSector (readSector board s.bs) s.memory s.bufferAddress sectors)
  else (eachSector (writeSector board s.memory) s.bs s.bufferAddress sectors, s.memory)

/-- A block command on a standard card finds a block length, and the number of blocks is not negative
as an `int`. -/
def BlocksMeet (s : MmcState D M) (a : Nat × BitVec 32) : Prop :=
  ∀ blocks, blocksOf s (commandOf a) = some blocks → (s.isSDHC = true ∨ s.blockLength ≠ 0) ∧ blocks.toNat < 2 ^ 31

/-- A block command goes through and transfers the sectors it is for. -/
def Transfers (board : Board D M) (s : MmcState D M) (a : Nat × BitVec 32) : Prop :=
  ∀ blocks, blocksOf s (commandOf a) = some blocks → s.isSDHC = true ∨ s.blockLength = 512 →
    ∃ s', mmcWrite board s a.1 a.2 = .ok s' ∧ (s'.bs, s'.memory) = transfer board s (commandOf a) (sectorsOf s blocks)

variable {blocks : BitVec 32}

theorem mmcBdrvRead_eq (bs : D) (memory : M) (sector : Nat) (address : BitVec 64) (n : Nat) :
    mmcBdrvRead board bs memory sector address n =
      eachSector (readSector board bs) memory address (List.range' sector n) := by
  induction n generalizing memory sector address with
  | zero => rfl
  | succ n ih =>
    rw [mmcBdrvRead, List.range'_succ, eachSector, readSector]
    cases board.bdrvRead bs sector with
    | none => rfl
    | some buf => exact ih _ _ _

theorem mmcBdrvWrite_eq (bs : D) (memory : M) (sector : Nat) (address : BitVec 64) (n : Nat) :
    mmcBdrvWrite board bs memory sector address n =
      eachSector (writeSector board memory) bs address (List.range' sector n) := by
  induction n generalizing bs sector address with
  | zero => rfl
  | succ n ih =>
    rw [mmcBdrvWrite, List.range'_succ, eachSector, writeSector]
    cases board.bdrvWrite bs sector (board.memoryRead memory address 512) with
    | none => rfl
    | some bs => exact ih _ _ _

theorem mmcOpcode_blocks (h : blocksOf s opcode = some blocks) :
    mmcOpcode board s opcode arg = ((if reads opcode then readBlocks board { s with blockCount := blocks } arg
      else writeBlocks board { s with blockCount := blocks } arg).map (·, mmcStatEndOfCmd ||| mmcStatEndOfData)) := by
  cases opcode <;> cases h <;> rfl

theorem firstSector_eq (h : s.isSDHC = true ∨ s.blockLength = 512) :
    firstSector s s.arg = .ok (if s.isSDHC then s.arg.toNat else s.arg.toNat / 512) := by
  rw [firstSector]
  by_cases hsdhc : s.isSDHC = true
  · simp [hsdhc]
  · simp only [hsdhc, h.resolve_left hsdhc, Bool.false_eq_true, if_false]
    rfl

theorem firstSector_division (s : MmcState D M) (arg : BitVec 32) :
    firstSector s arg = .error .division ↔ ¬ (s.isSDHC = true ∨ s.blockLength ≠ 0) := by
  rw [firstSector]
  split_ifs with hsdhc hlength
  · simp [hsdhc]
  · simp [hsdhc, hlength]
  · exact iff_of_false (by simp) (not_not.mpr (.inr hlength))

theorem endCommand_same (s : MmcState D M) (newStatus : BitVec 32) :
    (endCommand s newStatus).bs = s.bs ∧ (endCommand s newStatus).memory = s.memory := by
  rw [endCommand]
  split <;> exact ⟨rfl, rfl⟩

theorem transfers_of_meets {a : Nat × BitVec 32} (hmeets : BlocksMeet s a) : Transfers board s a := by
  intro blocks hblocks hcard
  have hcmd : a.1 = mmcCmd := by
    by_contra hne
    simp [commandOf, hne, blocksOf] at hblocks
  have hop : commandOf a = opcodeOf (a.2 &&& 63).toNat := if_pos hcmd
  have hn : numSectors { s with blockCount := blocks } = blocks.toNat := by
    change blocks.toInt.toNat = _
    have hcount := (hmeets blocks hblocks).2
    rw [toInt_eq_toNat_of_lt (by omega), Int.toNat_natCast]
  have hs : firstSector { s with blockCount := blocks } s.arg = _ := firstSector_eq hcard
  have hwrite : mmcWrite board s a.1 a.2 = mmcDoCommand board s a.2 s.arg := by
    rw [hcmd]
    rfl
  rw [hwrite, mmcDoCommand, ← hop, mmcOpcode_blocks hblocks, transfer, sectorsOf]
  split
  · simp only [readBlocks, hs, hn, Except.map, mmcBdrvRead_eq]
    exact ⟨_, rfl, Prod.ext (endCommand_same _ _).1 (endCommand_same _ _).2⟩
  · simp only [writeBlocks, hs, hn, Except.map, mmcBdrvWrite_eq]
    exact ⟨_, rfl, Prod.ext (endCommand_same _ _).1 (endCommand_same _ _).2⟩

theorem sendCsd_ne_division (n : Nat) : sendCsd n ≠ .error .division := by
  unfold sendCsd
  dsimp only
  split_ifs <;> simp

/-- Only a block command of a standard card without a block length divides by zero. -/
theorem mmcWrite_division {a : Nat × BitVec 32} (h : mmcWrite board s a.1 a.2 = .error .division) :
    ∃ blocks, blocksOf s (commandOf a) = some blocks ∧ ¬ (s.isSDHC = true ∨ s.blockLength ≠ 0) := by
  by_cases hcmd : a.1 = mmcCmd
  · have hop : mmcOpcode board s (commandOf a) s.arg = .error .division := by
      rw [hcmd] at h
      rw [commandOf, if_pos hcmd]
      exact error_of_map h
    cases hblocks : blocksOf s (commandOf a) with
    | some blocks =>
      rw [mmcOpcode_blocks hblocks] at hop
      have hsector : firstSector { s with blockCount := blocks } s.arg = .error .division := by
        have hmoved := error_of_map hop
        split at hmoved <;> exact error_of_map hmoved
      exact ⟨blocks, rfl, (firstSector_division _ _).1 hsector⟩
    | none =>
      generalize commandOf a = opcode at hop hblocks
      cases opcode with
      | mmcReadSingleBlock | mmcReadMultipleBlock | mmcWriteBlock | mmcWriteMultipleBlock => cases hblocks
      | mmcSendCsd => exact absurd (error_of_map hop) (sendCsd_ne_division _)
      | mmcSwitch =>
        simp only [mmcOpcode] at hop
        split at hop <;> cases hop
      | _ => cases hop
  · rw [mmcWrite] at h
    simp only [hcmd, if_false] at h
    split_ifs at h
    simp at h

/-- In a run whose block commands meet the condition nothing is divided by zero, and every block command
transfers the sectors it is for. -/
theorem blocks_transferred {r : Except Fault (MmcState D M)}
    (h : Reach (fun r => ∃ s, Starts s ∧ r = .ok s)
      (fun r a r' => ∃ s, r = .ok s ∧ BlocksMeet s a ∧ r' = mmcWrite board s a.1 a.2) r) :
    r ≠ .error .division ∧ ∀ s a, r = .ok s → BlocksMeet s a → Transfers board s a := by
  refine ⟨?_, fun s a _ hmeets => transfers_of_meets hmeets⟩
  cases h with
  | start h =>
    obtain ⟨s, -, rfl⟩ := h
    simp
  | step _ hn =>
    obtain ⟨s, -, hmeets, rfl⟩ := hn
    intro hdivision
    obtain ⟨blocks, hblocks, hlength⟩ := mmcWrite_division hdivision
    exact hlength (hmeets blocks hblocks).1

/-- A standard card of 512-byte blocks, and the address of its second block. -/
def ready : MmcState (List (List UInt8)) (List (BitVec 64 × List UInt8)) :=
  { start sectors [] with blockLength := 512, arg := 512 }

/-- The second block is read. -/
theorem oneBlock_transferred : ∃ s', mmcWrite smallBoard ready mmcCmd 17 = .ok s' ∧
    s'.memory = [(0, List.replicate 512 11)] := by
  have hlength : Reach (fun r => ∃ s, Starts s ∧ r = .ok s)
      (fun r a r' => ∃ s, r = .ok s ∧ BlocksMeet s a ∧ r' = mmcWrite smallBoard s a.1 a.2)
      (.ok { start sectors [] with blockLength := 512 }) :=
    .step (a := (mmcBlockLength, 511)) (.start ⟨_, ⟨sectors, [], rfl⟩, rfl⟩) ⟨_, rfl, fun _ h => (by cases h), rfl⟩
  have hready := hlength.step (a := (mmcArg, 512)) ⟨_, rfl, fun _ h => (by cases h), rfl⟩
  obtain ⟨s', hwrite, hmoved⟩ := (blocks_transferred hready).2 ready (mmcCmd, 17) rfl
    (fun blocks h => ⟨.inr (by decide), by cases h; decide⟩) 1 rfl (.inr rfl)
  exact ⟨s', hwrite, congrArg Prod.snd hmoved⟩

/-- A block is read before its length is set. -/
theorem unset_length_divides : ∃ s, Reach Starts (Acts smallBoard) s ∧
    blocksOf s (commandOf (mmcCmd, 17)) = some 1 ∧ mmcWrite smallBoard s mmcCmd 17 = .error .division :=
  ⟨start sectors [], .start ⟨sectors, [], rfl⟩, rfl, rfl⟩

end GemDroid.Goldfish.Mmc
