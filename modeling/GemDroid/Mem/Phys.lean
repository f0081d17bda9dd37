import GemDroid.Lib.Radix
import Mathlib.Algebra.Ring.Int.Defs
import Mathlib.Algebra.Ring.Nat

/-! Physical memory, `exec.c` and `translate-all.c`.

A page of physical memory has a descriptor, in a table of several levels. Its offset names a
row of the table of I/O functions, and if the page is split, the row's functions are those of a
`subpage_t`, which has an entry for each byte of the page. Accelerators (KVM, HAX) and the TLB
are left out. Words are numbers below `2 ^ 64`; a mask with the page size is a quotient or a
remainder. -/
namespace GemDroid.Mem
open Lib

/-- What the build fixes: `TARGET_PAGE_BITS` and `L1_MAP_ADDR_SPACE_BITS`. The descriptors
take two levels at least, and the table of I/O functions has room for the fixed rows. -/
structure Target where
  pageBits : Nat
  addrSpaceBits : Nat
  room : 6 ≤ pageBits
  wide : pageBits + 20 ≤ addrSpaceBits
  word : addrSpaceBits ≤ 64

variable {t : Target}

def l2Bits : Nat := 10

def l2Size : Nat := 2 ^ l2Bits

namespace Target
variable (t : Target)

def pageSize : Nat := 2 ^ t.pageBits

def vL1BitsRem : Nat := (t.addrSpaceBits - t.pageBits) % l2Bits

def vL1Bits : Nat := if t.vL1BitsRem < 4 then t.vL1BitsRem + l2Bits else t.vL1BitsRem

def vL1Shift : Nat := t.addrSpaceBits - t.pageBits - t.vL1Bits

def levels : Nat := t.vL1Shift / l2Bits

def ioMemNbEntries : Nat := 2 ^ (t.pageBits - 3)

def pages : Nat := 2 ^ (t.addrSpaceBits - t.pageBits)

end Target

def ioMemRom : Nat := 1 * 8

def ioMemUnassigned : Nat := 2 * 8

def isRomd (physOffset : Nat) : Bool := decide (physOffset % 2 = 1)

/-- The flag `IO_MEM_SUBPAGE`. -/
def isSubpage (physOffset : Nat) : Bool := decide (physOffset / 2 % 2 = 1)

structure PhysPageDesc where
  physOffset : Nat
  regionOffset : Nat
  deriving DecidableEq, Repr

/-! ### I/O functions -/

inductive Dir
  | read
  | write
  deriving DecidableEq, Repr

/-- The size of an access: one, two or four bytes. -/
inductive Width
  | byte
  | word
  | dword
  deriving DecidableEq, Repr

/-- What a row's function pointers point to. -/
inductive Func
  | unassigned
  | notdirty
  | watch
  | subpage
  | device (id : Nat)
  deriving DecidableEq, Repr

/-- What is passed to a function: a pointer to a `subpage_t` or to a device. -/
inductive Opaque
  | null
  | subpage (id : Nat)
  | device (id : Nat)
  deriving DecidableEq, Repr

structure IoRow where
  func : Dir → Width → Option Func
  opaqueArg : Opaque

/-- What a `subpage_t` holds for one byte, direction and size: a pointer into a row of the
functions, and what is passed. -/
structure Slot where
  memory : Nat
  opaqueArg : Opaque
  regionOffset : Nat
  deriving DecidableEq, Repr

structure Subpage where
  base : Nat
  slot : Nat → Dir → Width → Option Slot

/-- The state: `l1_phys_map`, the rows of I/O functions with `io_mem_used`, and the
`subpage_t` allocated so far. -/
structure State (t : Target) where
  l1PhysMap : Radix (Nat → PhysPageDesc) t.levels
  ioMem : Nat → IoRow
  ioMemUsed : Nat → Bool
  subpages : Nat → Subpage
  subpageCount : Nat

/-! ### Descriptors -/

section Descriptors
variable (t : Target)

def digit (index level : Nat) : Nat :=
  if level + 1 = t.levels then index / 2 ^ t.vL1Shift % 2 ^ t.vL1Bits
  else index / 2 ^ ((level + 1) * l2Bits) % l2Size

def physPageFind (map : Radix (Nat → PhysPageDesc) t.levels) (index : Nat) : Option PhysPageDesc :=
  (map.find (digit t index) t.levels).map fun pd => pd (index % l2Size)

def physPageAlloc (map : Radix (Nat → PhysPageDesc) t.levels) (index : Nat) : Radix (Nat → PhysPageDesc) t.levels :=
  Radix.alloc (digit t index) (fun i => ⟨ioMemUnassigned, (index + i) * t.pageSize % 2 ^ 64⟩) t.levels (some map)

def physPageSet (map : Radix (Nat → PhysPageDesc) t.levels) (index : Nat) (p : PhysPageDesc) :
    Radix (Nat → PhysPageDesc) t.levels :=
  Radix.modify (digit t index) (fun pd i => if i = index % l2Size then p else pd i) t.levels map

end Descriptors

namespace State

/-! ### Registering I/O functions -/

def getFreeIoMemIdx (s : State t) : Option Nat :=
  (List.range t.ioMemNbEntries).find? fun i => !s.ioMemUsed i

def subwidth (func : Dir → Width → Option Func) : Nat :=
  if [Width.byte, .word, .dword].all fun w => (func .read w).isSome && (func .write w).isSome then 0 else 4

def cpuRegisterIoMemory (s : State t) (func : Dir → Width → Option Func) (opaqueArg : Opaque) :
    State t × Option Nat :=
  match s.getFreeIoMemIdx with
  | none => (s, none)
  | some i =>
    ({ s with
        ioMemUsed := fun j => if j = i then true else s.ioMemUsed j
        ioMem := fun j => if j = i then ⟨func, opaqueArg⟩ else s.ioMem j },
      some (i * 8 + subwidth func))

/-! ### Split pages -/

def subpageRegister (s : State t) (mmio start last memory regionOffset : Nat) : State t :=
  if start ≥ t.pageSize ∨ last ≥ t.pageSize then s
  else
    let row := s.ioMem (memory / 8)
    let old := s.subpages mmio
    let new : Subpage := { old with
      slot := fun idx dir w =>
        if start ≤ idx ∧ idx ≤ last ∧ (row.func dir w).isSome then
          some ⟨memory / 8, row.opaqueArg, regionOffset⟩
        else old.slot idx dir w }
    { s with subpages := fun i => if i = mmio then new else s.subpages i }

def subpageInit (s : State t) (base origMemory regionOffset : Nat) : State t × Nat × Nat :=
  let mmio := s.subpageCount
  let s := { s with
    subpages := fun i => if i = mmio then ⟨base, fun _ _ _ => none⟩ else s.subpages i
    subpageCount := mmio + 1 }
  let (s, subpageMemory) := s.cpuRegisterIoMemory (fun _ _ => some .subpage) (.subpage mmio)
  let phys := match subpageMemory with
    | none => 2 ^ 64 - 1
    | some m => m + 2
  (s.subpageRegister mmio 0 (t.pageSize - 1) origMemory regionOffset, mmio, phys)

def subpageOf (s : State t) (physOffset : Nat) : Nat :=
  match (s.ioMem (physOffset % t.pageSize / 8)).opaqueArg with
  | .subpage id => id
  -- any other pointer is no `subpage_t`
  | _ => s.subpageCount

/-! ### Registering regions -/

def checkSubpage (t : Target) (addr startAddr origSize : Nat) : Nat × Nat × Bool :=
  let startAddr2 := if addr > startAddr then 0 else startAddr % t.pageSize
  let whole := startAddr + origSize - addr ≥ t.pageSize
  let endAddr2 := if whole then t.pageSize - 1 else (startAddr + origSize - 1) % t.pageSize
  (startAddr2, endAddr2, decide (startAddr2 > 0 ∨ (¬ whole ∧ endAddr2 < t.pageSize - 1)))

def nextOffset (t : Target) (physOffset : Nat) : Nat :=
  if physOffset % t.pageSize ≤ ioMemRom ∨ isRomd physOffset then physOffset + t.pageSize else physOffset

def setPage (s : State t) (index : Nat) (p : PhysPageDesc) : State t :=
  { s with l1PhysMap := physPageSet t s.l1PhysMap index p }

/-- The rest of a page goes on being what it is, and its first bytes become part of the
region. -/
def splitPage (s : State t) (index start2 end2 origMemory origOffset physOffset regionOffset : Nat) : State t :=
  let (s, mmio, phys) := s.subpageInit (index * t.pageSize) origMemory origOffset
  (s.subpageRegister mmio start2 end2 physOffset regionOffset).setPage index ⟨phys, 0⟩

def registerAssigned (s : State t) (p : PhysPageDesc) (addr startAddr origSize physOffset regionOffset : Nat) :
    State t :=
  let index := addr / t.pageSize
  let (start2, end2, needSubpage) := checkSubpage t addr startAddr origSize
  if needSubpage then
    if !isSubpage p.physOffset then
      s.splitPage index start2 end2 p.physOffset p.regionOffset physOffset regionOffset
    else
      (s.subpageRegister (s.subpageOf p.physOffset) start2 end2 physOffset regionOffset).setPage index
        ⟨p.physOffset, 0⟩
  -- the offset into the region is left as it is
  else s.setPage index ⟨physOffset, p.regionOffset⟩

def registerUnassigned (s : State t) (addr startAddr origSize physOffset regionOffset : Nat) : State t :=
  let index := addr / t.pageSize
  let s := ({ s with l1PhysMap := physPageAlloc t s.l1PhysMap index } : State t).setPage index
    ⟨physOffset, regionOffset⟩
  let (start2, end2, needSubpage) := checkSubpage t addr startAddr origSize
  if physOffset % t.pageSize ≤ ioMemRom ∨ isRomd physOffset then s
  else if needSubpage then
    s.splitPage index start2 end2 ioMemUnassigned (index * t.pageSize) physOffset regionOffset
  else s

/-- One round of the loop. -/
def registerPage (s : State t) (addr startAddr origSize physOffset regionOffset : Nat) : State t :=
  match physPageFind t s.l1PhysMap (addr / t.pageSize) with
  | some p =>
    if p.physOffset ≠ ioMemUnassigned then
      s.registerAssigned p addr startAddr origSize physOffset regionOffset
    else s.registerUnassigned addr startAddr origSize physOffset regionOffset
  | none => s.registerUnassigned addr startAddr origSize physOffset regionOffset

def offsetAfter (s : State t) (addr startAddr origSize physOffset : Nat) : Nat :=
  let assigned := match physPageFind t s.l1PhysMap (addr / t.pageSize) with
    | some p => decide (p.physOffset ≠ ioMemUnassigned)
    | none => false
  if assigned && (checkSubpage t addr startAddr origSize).2.2 then physOffset else nextOffset t physOffset

def registerPages (startAddr origSize : Nat) : Nat → State t → Nat → Nat → Nat → State t
  | 0, s, _, _, _ => s
  | pages + 1, s, addr, physOffset, regionOffset =>
    registerPages startAddr origSize pages (s.registerPage addr startAddr origSize physOffset regionOffset)
      (addr + t.pageSize) (s.offsetAfter addr startAddr origSize physOffset)
      ((regionOffset + t.pageSize) % 2 ^ 64)

end State

/-- The arguments of `cpu_register_physical_memory_log`. -/
structure Region where
  startAddr : Nat
  size : Nat
  physOffset : Nat
  regionOffset : Nat
  deriving DecidableEq, Repr

namespace Region

/-- The region offset that is used: that of an unassigned region is its address. -/
def offset (t : Target) (r : Region) : Nat :=
  let regionOffset := if r.physOffset = ioMemUnassigned then r.startAddr else r.regionOffset
  regionOffset / t.pageSize * t.pageSize

def pageCount (t : Target) (r : Region) : Nat := (r.size + t.pageSize - 1) / t.pageSize

end Region

namespace State

def cpuRegisterPhysicalMemoryLog (s : State t) (r : Region) : State t :=
  registerPages r.startAddr r.size (r.pageCount t) s r.startAddr r.physOffset (r.offset t)

/-! ### Accesses -/

/-- A call of a device's function, or of one of the fixed ones. -/
structure Call where
  func : Func
  opaqueArg : Opaque
  addr : Nat
  deriving DecidableEq, Repr

/-- `io_mem_read` and `io_mem_write`, through `subpage_readlen` and `subpage_writelen` if the
page is split. Nothing if a function is missing. -/
def ioMemCall (s : State t) (dir : Dir) (w : Width) (ioIndex addr : Nat) : Option Call :=
  match (s.ioMem ioIndex).func dir w, (s.ioMem ioIndex).opaqueArg with
  | some .subpage, .subpage mmio =>
    match (s.subpages mmio).slot (addr % t.pageSize) dir w with
    | some slot =>
      match (s.ioMem slot.memory).func dir w with
      | some func => some ⟨func, slot.opaqueArg, (addr + slot.regionOffset) % 2 ^ 64⟩
      | none => none
    | none => none
  | some .subpage, _ => none
  | some func, opaqueArg => some ⟨func, opaqueArg, addr⟩
  | none, _ => none

inductive Access
  | ram (addr l : Nat)
  | io (addr : Nat) (w : Width) (call : Option Call)
  deriving DecidableEq, Repr

def accessWidth (l addr1 : Nat) : Width × Nat :=
  if l ≥ 4 ∧ addr1 % 4 = 0 then (.dword, 4)
  else if l ≥ 2 ∧ addr1 % 2 = 0 then (.word, 2)
  else (.byte, 1)

def pageOffset : Option PhysPageDesc → Nat
  | none => ioMemUnassigned
  | some p => p.physOffset

def isIo (t : Target) (pd : Nat) : Dir → Bool
  | .write => decide (pd % t.pageSize ≠ 0)
  | .read => decide (pd % t.pageSize > ioMemRom) && !isRomd pd

def ioAddr (t : Target) (addr : Nat) : Option PhysPageDesc → Nat
  | none => addr
  | some p => (addr % t.pageSize + p.regionOffset) % 2 ^ 64

/-- One round of `cpu_physical_memory_rw`, with the bytes it takes. -/
def rwAccess (s : State t) (dir : Dir) (addr len : Nat) : Access × Nat :=
  let l := min (t.pageSize - addr % t.pageSize) len
  let p := physPageFind t s.l1PhysMap (addr / t.pageSize)
  let pd := pageOffset p
  if isIo t pd dir then
    let addr1 := ioAddr t addr p
    let (w, l) := accessWidth l addr1
    (.io addr w (s.ioMemCall dir w (pd / 8 % t.ioMemNbEntries) addr1), l)
  else (.ram addr l, l)

/-- `cpu_physical_memory_rw`; every round takes a byte at least. -/
def rwLoop (s : State t) (dir : Dir) : Nat → Nat → Nat → List Access
  | 0, _, _ => []
  | fuel + 1, addr, len =>
    if len = 0 then []
    else
      let (access, l) := s.rwAccess dir addr len
      access :: rwLoop s dir fuel (addr + l) (len - l)

def cpuPhysicalMemoryRw (s : State t) (dir : Dir) (addr len : Nat) : List Access := s.rwLoop dir len addr len

/-! ### The start -/

def init (t : Target) : State t where
  l1PhysMap := Radix.empty (fun _ => ⟨ioMemUnassigned, 0⟩) t.levels
  ioMem := fun i =>
    match i with
    -- error_mem_read has no functions
    | 1 => ⟨fun dir _ => match dir with | .read => none | .write => some .unassigned, .null⟩
    | 2 => ⟨fun _ _ => some .unassigned, .null⟩
    | 3 => ⟨fun dir _ => match dir with | .read => none | .write => some .notdirty, .null⟩
    | 5 => ⟨fun _ _ => some .watch, .null⟩
    | _ => ⟨fun _ _ => none, .null⟩
  ioMemUsed := fun i => decide (i < 6)
  subpages := fun _ => ⟨0, fun _ _ _ => none⟩
  subpageCount := 0

end State

end GemDroid.Mem
