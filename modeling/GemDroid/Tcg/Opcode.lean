import Mathlib.Data.List.Basic

/-! TCG operations: the op stream's instructions and the opcode table.

An instruction is an opcode of `tcg-opc.h` together with its arguments, split as the
table splits them into output temps, input temps and constants. The `_i32`/`_i64` pairs
of the table are one constructor with a `TCGType`, and the binary and unary operations
share a constructor each. The word size `w` is `TCG_TARGET_REG_BITS`; on a 32-bit host
the 64-bit operations are not present and a 64-bit guest value is a pair of temps. -/
namespace GemDroid.Tcg

inductive TCGType
  | i32
  | i64
  deriving DecidableEq, Repr

/-- The bits of a host word an operation of this type works on. -/
def TCGType.bits (w : Nat) : TCGType → Nat
  | .i32 => 32
  | .i64 => w

inductive TCGCond
  | never
  | always
  | eq
  | ne
  | lt
  | ge
  | le
  | gt
  | ltu
  | geu
  | leu
  | gtu
  deriving DecidableEq, Repr

/-- The index of a temporary in `s->temps`: the globals come first. -/
abbrev Temp := Nat

abbrev Label := Nat

/-- The operations with one output and two inputs. -/
inductive BinOp
  | add
  | sub
  | mul
  | div
  | divu
  | rem
  | remu
  | and
  | or
  | xor
  | shl
  | shr
  | sar
  | rotl
  | rotr
  | andc
  | orc
  | eqv
  | nand
  | nor
  | muluh
  | mulsh
  deriving DecidableEq, Repr

/-- The operations with one output and one input, `mov` apart. -/
inductive UnOp
  | ext8s
  | ext8u
  | ext16s
  | ext16u
  | ext32s
  | ext32u
  | bswap16
  | bswap32
  | bswap64
  | not
  | neg
  deriving DecidableEq, Repr

/-- The double-word additions and subtractions. -/
inductive AddSub2
  | add2
  | sub2
  deriving DecidableEq, Repr

/-- The widening multiplications. -/
inductive Mul2
  | mulu2
  | muls2
  deriving DecidableEq, Repr

/-- The double-word divisions. -/
inductive Div2
  | div2
  | divu2
  deriving DecidableEq, Repr

inductive MemSize
  | mo8
  | mo16
  | mo32
  | mo64
  deriving DecidableEq, Repr

def MemSize.bits : MemSize → Nat
  | .mo8 => 8
  | .mo16 => 16
  | .mo32 => 32
  | .mo64 => 64

/-- What a load reads: `ld8u` is `⟨.mo8, false⟩`, `ld8s` is `⟨.mo8, true⟩`. -/
structure LoadShape where
  size : MemSize
  /-- `MO_SIGN` -/
  sign : Bool
  deriving DecidableEq, Repr

/-- The name of a guest memory operation: the `qemu_ld_i32`/`qemu_st_i32` family of a
backend with `TCG_TARGET_HAS_new_ldst`, or the older one with the size in the name. -/
inductive GuestOp
  | new (ty : TCGType)
  | old
  deriving DecidableEq, Repr

inductive Instr (w : Nat)
  | endOp
  | nop
  | nop1 (a : BitVec w)
  | nop2 (a b : BitVec w)
  | nop3 (a b c : BitVec w)
  /-- A no-op over `n` argument words. -/
  | nopn (n : Nat)
  | discard (t : Temp)
  | setLabel (l : Label)
  /-- The last input is the function pointer. -/
  | call (outs ins : List Temp) (flags : BitVec w)
  | br (l : Label)
  | mov (ty : TCGType) (dst src : Temp)
  | movi (ty : TCGType) (dst : Temp) (val : BitVec w)
  | setcond (ty : TCGType) (dst a b : Temp) (cond : TCGCond)
  | movcond (ty : TCGType) (dst c1 c2 v1 v2 : Temp) (cond : TCGCond)
  | ld (ty : TCGType) (shape : LoadShape) (dst base : Temp) (ofs : BitVec w)
  | st (ty : TCGType) (size : MemSize) (src base : Temp) (ofs : BitVec w)
  | bin (op : BinOp) (ty : TCGType) (dst a b : Temp)
  | div2 (op : Div2) (ty : TCGType) (quo rem lo hi div : Temp)
  | deposit (ty : TCGType) (dst a b : Temp) (pos len : Nat)
  | brcond (ty : TCGType) (a b : Temp) (cond : TCGCond) (l : Label)
  | addsub2 (op : AddSub2) (ty : TCGType) (rl rh al ah bl bh : Temp)
  | mul2 (op : Mul2) (ty : TCGType) (rl rh a b : Temp)
  | brcond2 (al ah bl bh : Temp) (cond : TCGCond) (l : Label)
  | setcond2 (dst al ah bl bh : Temp) (cond : TCGCond)
  | un (op : UnOp) (ty : TCGType) (dst a : Temp)
  | debugInsnStart (pc : List (BitVec w))
  | exitTb (val : BitVec w)
  | gotoTb (idx : Nat)
  /-- The outputs and the address are pairs of temps where they do not fit a word. -/
  | qemuLd (op : GuestOp) (shape : LoadShape) (outs addr : List Temp) (cargs : List (BitVec w))
  | qemuSt (op : GuestOp) (size : MemSize) (ins : List Temp) (cargs : List (BitVec w))
  deriving DecidableEq, Repr

namespace Instr
variable {w : Nat}

def oargs : Instr w → List Temp
  | call outs _ _ => outs
  | mov _ d _ | movi _ d _ | setcond _ d _ _ _ | movcond _ d _ _ _ _ _ => [d]
  | ld _ _ d _ _ | bin _ _ d _ _ | deposit _ d _ _ _ _ | setcond2 d _ _ _ _ _ | un _ _ d _ => [d]
  | div2 _ _ q r _ _ _ => [q, r]
  | addsub2 _ _ rl rh _ _ _ _ | mul2 _ _ rl rh _ _ => [rl, rh]
  | discard t => [t]
  | qemuLd _ _ outs _ _ => outs
  | _ => []

/-- The input temps, the `nb_iargs` arguments after the outputs. -/
def iargs : Instr w → List Temp
  | call _ ins _ => ins
  | mov _ _ s => [s]
  | setcond _ _ a b _ | bin _ _ _ a b | deposit _ _ a b _ _ | brcond _ a b _ _ => [a, b]
  | movcond _ _ c1 c2 v1 v2 _ => [c1, c2, v1, v2]
  | ld _ _ _ base _ => [base]
  | st _ _ src base _ => [src, base]
  | div2 _ _ _ _ lo hi d => [lo, hi, d]
  | addsub2 _ _ _ _ al ah bl bh => [al, ah, bl, bh]
  | mul2 _ _ _ _ a b => [a, b]
  | brcond2 al ah bl bh _ _ | setcond2 _ al ah bl bh _ => [al, ah, bl, bh]
  | un _ _ _ a => [a]
  | qemuLd _ _ _ addr _ => addr
  | qemuSt _ _ ins _ => ins
  | _ => []

/-- The constant arguments, `nb_cargs`. A call has its flags and the two words that hold
the argument counts. -/
def nbCargs : Instr w → Nat
  | nop1 _ | setLabel _ | br _ | movi .. | setcond .. | movcond .. | setcond2 .. => 1
  | ld .. | st .. | exitTb _ | gotoTb _ => 1
  | nop2 _ _ | deposit .. | brcond .. | brcond2 .. => 2
  | nop3 _ _ _ | call .. => 3
  | nopn n => n
  | debugInsnStart pc => pc.length
  | qemuLd _ _ _ _ cargs | qemuSt _ _ _ cargs => cargs.length
  | _ => 0

/-- The words the instruction takes in the argument buffer. -/
def nbArgs (i : Instr w) : Nat := i.oargs.length + i.iargs.length + i.nbCargs

def bbEnd : Instr w → Bool
  | setLabel _ | br _ | brcond .. | brcond2 .. | exitTb _ | gotoTb _ => true
  | _ => false

def sideEffects : Instr w → Bool
  | qemuLd .. | qemuSt .. => true
  | _ => false

def callClobber : Instr w → Bool
  | call .. | qemuLd .. | qemuSt .. => true
  | _ => false

end Instr

def noReadGlobals {w : Nat} (flags : BitVec w) : Bool := flags.getLsbD 4

def noWriteGlobals {w : Nat} (flags : BitVec w) : Bool := flags.getLsbD 5

def noSideEffects {w : Nat} (flags : BitVec w) : Bool := flags.getLsbD 6

/-- The temps of a `TCGContext`: the globals are the first `nbGlobals`, and a temporary
above them may be a local one, which lives across basic blocks. -/
structure Context where
  nbGlobals : Nat
  nbTemps : Nat
  tempLocal : Temp → Bool
  type : Temp → TCGType
  globals_le : nbGlobals ≤ nbTemps
  local_lt : ∀ t, tempLocal t = true → t < nbTemps

namespace Context

def kept (ctx : Context) (t : Temp) : Bool := t < ctx.nbGlobals || ctx.tempLocal t

theorem kept_of_global {ctx : Context} {t : Temp} (h : t < ctx.nbGlobals) : ctx.kept t = true := by
  simp [kept, h]

end Context

end GemDroid.Tcg
