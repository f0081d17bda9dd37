import GemDroid.Lib.LinkPath
import Mathlib.Algebra.Ring.Int.Defs
import Mathlib.Data.Nat.Bitwise

/-! Translation blocks: the data of `translate-all.c` and its operations.

A `TbId` is an index into `tbs[]`. A link of a page list carries the page index
of the block it points to, and a link of a jump ring says which field of the
block comes next; the source keeps both in the low bits of the pointer. Guest
and host addresses are numbers, the page address `-1` is `none`, and `tcPtr` and
jump targets count from `code_gen_buffer`. Page addresses are RAM offsets, far
below the top of their type, so their sums do not wrap.

The configuration is system emulation without precise self-modifying-code
restarts, as for ARM guests. What an operation runs into instead of finishing is
a `Fault`. -/
namespace GemDroid.Tb
open Lib.LinkPath Function

/-- A block has two pages and two jumps; the instance for their numerals, by name. -/
theorem neZero_two : NeZero 2 := ⟨by decide⟩

abbrev TbId := Nat

/-- A link of a jump ring: `0` and `1` go on at `jmp_next[n]`, `2` at `jmp_first`. -/
inductive JmpLink
  | next (tb : TbId) (n : Fin 2)
  | first (tb : TbId)
  deriving DecidableEq, Repr

/-- The part of a block that only its generation sets. -/
structure Info where
  pc : Nat
  size : Nat
  tcPtr : Nat
  pageAddr0 : Nat
  pageAddr1 : Option Nat
  /-- Offset of the exit stub of slot `n`; `none` (0xffff) when the block has no such jump. -/
  tbNextOffset : Fin 2 → Option Nat

structure TranslationBlock extends Info where
  csBase : Nat
  flags : Nat
  cflags : Nat
  physHashNext : Option TbId
  pageNext : Fin 2 → Option (TbId × Fin 2)
  jmpNext : Fin 2 → Option JmpLink
  jmpFirst : Option JmpLink
  /-- Where the native jump of slot `n` goes. -/
  tbNext : Fin 2 → Nat
  icount : Nat

def Info.pageAddr (t : Info) (n : Fin 2) : Option Nat :=
  if n = 0 then some t.pageAddr0 else t.pageAddr1

structure PageDesc where
  firstTb : Option (TbId × Fin 2)
  codeWriteCount : Nat
  codeBitmap : Option (Nat → BitVec 8)

/-- What is fixed at start-up. The page has at least the bits of a jump-cache page
index, a flushed buffer takes a block, and the code buffer ends on the alignment
of the code it holds. -/
structure Config where
  pageBits : Nat
  codeGenBufferSize : Nat
  codeGenBufferMaxSize : Nat
  codeGenMaxBlocks : Nat
  pageBits_le : 6 ≤ pageBits
  bufferMaxSize_pos : 0 < codeGenBufferMaxSize
  bufferMaxSize_le : codeGenBufferMaxSize ≤ codeGenBufferSize
  maxBlocks_pos : 0 < codeGenMaxBlocks
  bufferSize_aligned : 16 ∣ codeGenBufferSize

def Config.pageSize (cfg : Config) : Nat := 2 ^ cfg.pageBits

/-- `l1Map` says which groups of page descriptors are allocated; a descriptor of
no allocated group is never looked at. `valid` is ghost state: the blocks that
have been linked and since then neither invalidated nor flushed. No operation
reads it. -/
structure State where
  tbs : TbId → TranslationBlock
  nbTbs : Nat
  tbPhysHash : Nat → Option TbId
  l1Map : Nat → Bool
  pages : Nat → PageDesc
  tbJmpCache : Nat → Nat → Option TbId
  codeGenPtr : Nat
  tbFlushCount : Nat
  tbPhysInvalidateCount : Nat
  tbInvalidatedFlag : Bool
  valid : TbId → Bool

inductive Fault
  | walk (w : WalkFault)
  | nullPage
  | codeBufferOverflow
  | nullTb
  deriving DecidableEq, Repr

def State.modifyTb (s : State) (t : TbId) (f : TranslationBlock → TranslationBlock) : State :=
  { s with tbs := update s.tbs t (f (s.tbs t)) }

def State.modifyPage (s : State) (p : Nat) (f : PageDesc → PageDesc) : State :=
  { s with pages := update s.pages p (f (s.pages p)) }

section Links

inductive HashCell
  | head (h : Nat)
  | next (tb : TbId)
  deriving DecidableEq

inductive PageCell
  | first (p : Nat)
  | next (tb : TbId) (n : Fin 2)
  deriving DecidableEq

def readHash (s : State) : HashCell → Option TbId
  | .head h => s.tbPhysHash h
  | .next t => (s.tbs t).physHashNext

def writeHash (s : State) (v : Option TbId) : HashCell → State
  | .head h => { s with tbPhysHash := update s.tbPhysHash h v }
  | .next t => s.modifyTb t fun b => { b with physHashNext := v }

def pageCell (k : TbId × Fin 2) : PageCell := .next k.1 k.2

def readPage (s : State) : PageCell → Option (TbId × Fin 2)
  | .first p => (s.pages p).firstTb
  | .next t n => (s.tbs t).pageNext n

def writePage (s : State) (v : Option (TbId × Fin 2)) : PageCell → State
  | .first p => s.modifyPage p fun d => { d with firstTb := v }
  | .next t n => s.modifyTb t fun b => { b with pageNext := update b.pageNext n v }

def readJmp (s : State) : JmpLink → Option JmpLink
  | .first t => (s.tbs t).jmpFirst
  | .next t n => (s.tbs t).jmpNext n

def writeJmp (s : State) (v : Option JmpLink) : JmpLink → State
  | .first t => s.modifyTb t fun b => { b with jmpFirst := v }
  | .next t n => s.modifyTb t fun b => { b with jmpNext := update b.jmpNext n v }

/-- Enough steps for any list of the current blocks: each is on it at most twice. -/
def walkFuel (s : State) : Nat := 2 * s.nbTbs + 2

def walk (r : Except WalkFault α) : Except Fault α :=
  match r with
  | .ok a => .ok a
  | .error w => .error (.walk w)

end Links

section Hashing

def tbPhysHashFunc (pc : Nat) : Nat := (pc >>> 2) &&& (2 ^ 15 - 1)

def tbJmpCacheHashFunc (cfg : Config) (pc : Nat) : Nat :=
  let tmp := pc ^^^ (pc >>> (cfg.pageBits - 6))
  ((tmp >>> (cfg.pageBits - 6)) &&& (2 ^ 12 - 2 ^ 6)) ||| (tmp &&& (2 ^ 6 - 1))

end Hashing

section Invalidation
variable (cfg : Config)

def pageGroup (index : Nat) : Nat := index / 2 ^ 10

def pageFind (s : State) (index : Nat) : Option PageDesc :=
  if s.l1Map (pageGroup index) then some (s.pages index) else none

def pageFindAlloc (s : State) (index : Nat) : State :=
  { s with l1Map := update s.l1Map (pageGroup index) true }

def invalidatePageBitmap (d : PageDesc) : PageDesc :=
  { d with codeBitmap := none, codeWriteCount := 0 }

def tbHashRemove (s : State) (h : Nat) (tb : TbId) : Except Fault State := do
  let c ← walk (findCell (readHash s) .next (· == tb) (walkFuel s) (.head h))
  return writeHash s (readHash s (.next tb)) c

def tbPageRemove (s : State) (p : Nat) (tb : TbId) : Except Fault State := do
  let c ← walk (findCell (readPage s) pageCell (·.1 == tb) (walkFuel s) (.first p))
  -- The cell holds one of the two links of the block; its own link moves into the cell.
  match readPage s c with
  | some k => return writePage s (readPage s (pageCell k)) c
  | none => return s

def tbJmpRemove (s : State) (tb : TbId) (n : Fin 2) : Except Fault State :=
  match readJmp s (.next tb n) with
  | none => return s
  | some _ => do
    let c ← walk (findCell (readJmp s) id (· == .next tb n) (walkFuel s) (.next tb n))
    let s := writeJmp s (readJmp s (.next tb n)) c
    return writeJmp s none (.next tb n)

def tbSetJmpTarget (s : State) (tb : TbId) (n : Fin 2) (addr : Nat) : State :=
  s.modifyTb tb fun b => { b with tbNext := update b.tbNext n addr }

def tbResetJump (s : State) (tb : TbId) (n : Fin 2) : State :=
  tbSetJmpTarget s tb n ((s.tbs tb).tcPtr + ((s.tbs tb).tbNextOffset n).getD 0xffff)

def tbPageUnlink (s : State) (tb : TbId) (addr pageAddr : Option Nat) : Except Fault State :=
  match addr with
  | none => return s
  | some a =>
    if some a = pageAddr then return s
    else match pageFind s (a >>> cfg.pageBits) with
      | none => throw .nullPage
      | some _ => do
        let s ← tbPageRemove s (a >>> cfg.pageBits) tb
        return s.modifyPage (a >>> cfg.pageBits) invalidatePageBitmap

/-- Send the jumps of the slots on the ring from the link `k` on back to their stubs. -/
def tbJmpUnchain : Nat → State → Option JmpLink → Except Fault State
  | 0, _, _ => throw (.walk .fuel)
  | _ + 1, _, none => throw (.walk .null)
  | _ + 1, s, some (.first _) => return s
  | fuel + 1, s, some (.next t n) =>
    let next := readJmp s (.next t n)
    tbJmpUnchain fuel (writeJmp (tbResetJump s t n) none (.next t n)) next

def tbPhysInvalidate (s : State) (tb : TbId) (pageAddr : Option Nat) : Except Fault State := do
  let t := s.tbs tb
  let physPc := t.pageAddr0 + t.pc % cfg.pageSize
  let s ← tbHashRemove s (tbPhysHashFunc physPc) tb
  let s ← tbPageUnlink cfg s tb (some t.pageAddr0) pageAddr
  let s ← tbPageUnlink cfg s tb t.pageAddr1 pageAddr
  let h := tbJmpCacheHashFunc cfg t.pc
  let s := { s with
    tbInvalidatedFlag := true
    tbJmpCache := fun cpu => if s.tbJmpCache cpu h = some tb then update (s.tbJmpCache cpu) h none
      else s.tbJmpCache cpu }
  let s ← tbJmpRemove s tb 0
  let s ← tbJmpRemove s tb 1
  let s ← tbJmpUnchain (walkFuel s) s (s.tbs tb).jmpFirst
  let s := writeJmp s (some (.first tb)) (.first tb)
  return { s with
    tbPhysInvalidateCount := s.tbPhysInvalidateCount + 1
    valid := update s.valid tb false }

def setBits (tab : Nat → BitVec 8) (start len : Nat) : Nat → BitVec 8 :=
  let stop := start + len
  let mask := 0xff#8 <<< (start % 8)
  if start / 8 = stop / 8 then
    if start < stop then
      update tab (start / 8) (tab (start / 8) ||| (mask &&& ~~~(0xff#8 <<< (stop % 8))))
    else tab
  else
    let tab := update tab (start / 8) (tab (start / 8) ||| mask)
    let tab := fun i => if start / 8 < i ∧ i < stop / 8 then 0xff else tab i
    if stop % 8 ≠ 0 then
      update tab (stop / 8) (tab (stop / 8) ||| ~~~(0xff#8 <<< (stop % 8)))
    else tab

/-- Where the part of a block that a page list tags with `n` lies in that page. -/
def bitmapRange (t : Info) (n : Fin 2) : Nat × Nat :=
  if n = 0 then
    let tbStart := t.pc % cfg.pageSize
    (tbStart, min (tbStart + t.size) cfg.pageSize)
  else (0, (t.pc + t.size) % cfg.pageSize)

def buildPageBitmapFrom (s : State) : Nat → Option (TbId × Fin 2) → (Nat → BitVec 8) → Except Fault (Nat → BitVec 8)
  | 0, _, _ => throw (.walk .fuel)
  | _ + 1, none, tab => return tab
  | fuel + 1, some (t, n), tab =>
    let r := bitmapRange cfg (s.tbs t).toInfo n
    buildPageBitmapFrom s fuel ((s.tbs t).pageNext n) (setBits tab r.1 (r.2 - r.1))

def buildPageBitmap (s : State) (p : Nat) : Except Fault State := do
  let tab ← buildPageBitmapFrom cfg s (walkFuel s) (s.pages p).firstTb fun _ => 0
  return s.modifyPage p fun d => { d with codeBitmap := some tab }

/-- The range test of the page walk. The end of a first part may lie after the page. -/
def tbIntersects (t : Info) (n : Fin 2) (start stop : Nat) : Bool :=
  let r := if n = 0 then
      let tbStart := t.pageAddr0 + t.pc % cfg.pageSize
      (tbStart, tbStart + t.size)
    else
      let tbStart := t.pageAddr1.getD 0
      (tbStart, tbStart + (t.pc + t.size) % cfg.pageSize)
  !(decide (r.2 ≤ start) || decide (stop ≤ r.1))

/-- The walk of `tb_invalidate_phys_page_range`: the next link is saved before the
block is invalidated. -/
def tbInvalidateFrom (start stop : Nat) : Nat → State → Option (TbId × Fin 2) → Except Fault State
  | 0, _, _ => throw (.walk .fuel)
  | _ + 1, s, none => return s
  | fuel + 1, s, some (tb, n) => do
    let tbNext := (s.tbs tb).pageNext n
    let s ← if tbIntersects cfg (s.tbs tb).toInfo n start stop then tbPhysInvalidate cfg s tb none else pure s
    tbInvalidateFrom start stop fuel s tbNext

/-- Count a write to a page without a bitmap, and build the bitmap when a guest write
makes the count reach `SMC_BITMAP_USE_THRESHOLD`, which is 10. -/
def countCodeWrite (s : State) (p : Nat) (isCpuWriteAccess : Bool) : Except Fault State :=
  if (s.pages p).codeBitmap.isNone then
    let s := s.modifyPage p fun d => { d with codeWriteCount := d.codeWriteCount + 1 }
    if 10 ≤ (s.pages p).codeWriteCount ∧ isCpuWriteAccess then buildPageBitmap cfg s p else return s
  else return s

def tbInvalidatePhysPageRange (s : State) (start stop : Nat) (isCpuWriteAccess : Bool) : Except Fault State :=
  let p := start >>> cfg.pageBits
  match pageFind s p with
  | none => return s
  | some _ => do
    let s ← countCodeWrite cfg s p isCpuWriteAccess
    let s ← tbInvalidateFrom cfg start stop (walkFuel s) s (s.pages p).firstTb
    -- With no code left on the page, its writes need not be watched.
    if (s.pages p).firstTb.isNone then return s.modifyPage p invalidatePageBitmap else return s

def tbInvalidatePages (stop : Nat) (isCpuWriteAccess : Bool) : Nat → State → Nat → Except Fault State
  | 0, s, start => if start < stop then throw (.walk .fuel) else return s
  | k + 1, s, start =>
    if start < stop then do
      let s ← tbInvalidatePhysPageRange cfg s start stop isCpuWriteAccess
      tbInvalidatePages stop isCpuWriteAccess k s (start / cfg.pageSize * cfg.pageSize + cfg.pageSize)
    else return s

/-- Every round moves `start` up, so `stop` rounds reach `stop`. -/
def tbInvalidatePhysRange (s : State) (start stop : Nat) (isCpuWriteAccess : Bool) : Except Fault State :=
  tbInvalidatePages cfg stop isCpuWriteAccess stop s start

end Invalidation

section Generation
variable (cfg : Config)

/-- What `cpu_gen_code` makes of the guest code at `pc`: at least one byte of guest
code, ending inside the second page at the latest, and at least one byte of host
code, in which the exit stubs lie. A block of host code is no larger than the
slack the code buffer keeps. -/
structure Translated (pc : Nat) where
  size : Nat
  codeGenSize : Nat
  icount : Nat
  tbNextOffset : Fin 2 → Option Nat
  tbNext : Fin 2 → Nat
  size_pos : 0 < size
  size_lt : pc % cfg.pageSize + size < 2 * cfg.pageSize
  codeGenSize_pos : 0 < codeGenSize
  codeGenSize_le : codeGenSize ≤ cfg.codeGenBufferSize - cfg.codeGenBufferMaxSize
  offset_lt : ∀ n off, tbNextOffset n = some off → 0 < off ∧ off < codeGenSize

def tbAlloc (s : State) (pc : Nat) : Option (TbId × State) :=
  if cfg.codeGenMaxBlocks ≤ s.nbTbs ∨ cfg.codeGenBufferMaxSize ≤ s.codeGenPtr then none
  else some (s.nbTbs, { s.modifyTb s.nbTbs (fun b => { b with pc := pc, cflags := 0 }) with nbTbs := s.nbTbs + 1 })

def pageFlushTb (s : State) : State :=
  { s with pages := fun p =>
      if s.l1Map (pageGroup p) then invalidatePageBitmap { s.pages p with firstTb := none } else s.pages p }

def tbFlush (s : State) : Except Fault State :=
  if cfg.codeGenBufferSize < s.codeGenPtr then throw .codeBufferOverflow
  else
    let s := { s with nbTbs := 0, tbJmpCache := fun _ _ => none, tbPhysHash := fun _ => none }
    let s := pageFlushTb s
    return { s with codeGenPtr := 0, tbFlushCount := s.tbFlushCount + 1, valid := fun _ => false }

def Info.setPageAddr (i : Info) (n : Fin 2) (a : Nat) : Info :=
  if n = 0 then { i with pageAddr0 := a } else { i with pageAddr1 := some a }

def tbAllocPage (s : State) (tb : TbId) (n : Fin 2) (pageAddr : Nat) : State :=
  let p := pageAddr >>> cfg.pageBits
  let s := s.modifyTb tb fun b => { b with toInfo := b.toInfo.setPageAddr n pageAddr }
  let s := pageFindAlloc s p
  let s := writePage s (readPage s (.first p)) (.next tb n)
  let s := writePage s (some (tb, n)) (.first p)
  s.modifyPage p invalidatePageBitmap

def tbLinkPages (s : State) (tb : TbId) (pageAddr0 : Nat) (physPage2 : Option Nat) : State :=
  let s := tbAllocPage cfg s tb 0 pageAddr0
  match physPage2 with
  | some a => tbAllocPage cfg s tb 1 a
  | none => s.modifyTb tb fun b => { b with pageAddr1 := none }

def tbInitJump (s : State) (tb : TbId) (n : Fin 2) : State :=
  if ((s.tbs tb).tbNextOffset n).isSome then tbResetJump s tb n else s

def tbInitJumps (s : State) (tb : TbId) : State :=
  let s := writeJmp s (some (.first tb)) (.first tb)
  let s := writeJmp s none (.next tb 0)
  let s := writeJmp s none (.next tb 1)
  tbInitJump (tbInitJump s tb 0) tb 1

def tbLinkPage (s : State) (tb : TbId) (physPc : Nat) (physPage2 : Option Nat) : State :=
  let h := tbPhysHashFunc physPc
  let s := writeHash s (readHash s (.head h)) (.next tb)
  let s := writeHash s (some tb) (.head h)
  let s := tbLinkPages cfg s tb (physPc / cfg.pageSize * cfg.pageSize) physPage2
  let s := tbInitJumps s tb
  { s with valid := update s.valid tb true }

/-- The guest's page table at one moment: the physical page behind a virtual page,
or a fault that unwinds to the main loop. -/
abbrev Mmu := Nat → Option Nat

def getPageAddrCode (mmu : Mmu) (addr : Nat) : Option Nat :=
  (mmu (addr / cfg.pageSize)).map fun p => p * cfg.pageSize + addr % cfg.pageSize

/-- A block of the code buffer, flushing it first when it is full. -/
def tbAllocFlush (s : State) (pc : Nat) : Except Fault (TbId × State) :=
  match tbAlloc cfg s pc with
  | some r => return r
  | none => do
    let s ← tbFlush cfg s
    match tbAlloc cfg s pc with
    | some (tb, s) => return (tb, { s with tbInvalidatedFlag := true })
    | none => throw .nullTb

/-- Generate the block of `pc`. A guest fault ends it where it strikes: in the
lookup of `pc`, in the translation (`gen` is `none`), or in the lookup of the
second page, when the block and its code are already allocated. -/
def tbGenCode (s : State) (pc csBase flags cflags : Nat) (mmu : Mmu) (gen : Option (Translated cfg pc)) :
    Except Fault State :=
  match getPageAddrCode cfg mmu pc with
  | none => return s
  | some physPc => do
    let (tb, s) ← tbAllocFlush cfg s pc
    let s := s.modifyTb tb fun b =>
      { b with tcPtr := s.codeGenPtr, csBase := csBase, flags := flags, cflags := cflags }
    match gen with
    | none => return s
    | some g =>
      let s := s.modifyTb tb fun b => { b with
        size := g.size, icount := g.icount, tbNextOffset := g.tbNextOffset, tbNext := g.tbNext }
      -- `CODE_GEN_ALIGN` is 16.
      let s := { s with codeGenPtr := (s.codeGenPtr + g.codeGenSize + 15) / 16 * 16 }
      let virtPage2 := (pc + g.size - 1) / cfg.pageSize * cfg.pageSize
      if pc / cfg.pageSize * cfg.pageSize ≠ virtPage2 then
        match getPageAddrCode cfg mmu virtPage2 with
        | none => return s
        | some physPage2 => return tbLinkPage cfg s tb physPc (some physPage2)
      else return tbLinkPage cfg s tb physPc none

def tbAddJump (s : State) (tb : TbId) (n : Fin 2) (tbNext : TbId) : State :=
  match readJmp s (.next tb n) with
  | some _ => s
  | none =>
    let s := tbSetJmpTarget s tb n (s.tbs tbNext).tcPtr
    let s := writeJmp s (readJmp s (.first tbNext)) (.next tb n)
    writeJmp s (some (.next tb n)) (.first tbNext)

end Generation

end GemDroid.Tb
