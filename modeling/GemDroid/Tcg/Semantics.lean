import GemDroid.Tcg.Opcode
import Mathlib.Data.BitVec

/-! What an op stream means.

A run of a stream moves through its instructions with a content for every temp, and meets
the rest of the machine only through a `World`: host memory, guest memory behind the
softmmu, the helpers and the chaining of translation blocks. The world's state is opaque,
and so is what a helper or a guest access does with it. A temp has no content after it is
discarded and, for a plain temporary, after the end of a basic block; reading such a temp,
and every operand the reference calls undefined, leaves the run undefined (`none`). -/
namespace GemDroid.Tcg

section Values
variable {n : Nat}

def TCGCond.holds (c : TCGCond) (x y : BitVec n) : Bool :=
  match c with
  | .never => false
  | .always => true
  | .eq => x == y
  | .ne => x != y
  | .lt => x.slt y
  | .ge => y.sle x
  | .le => x.sle y
  | .gt => y.slt x
  | .ltu => x.ult y
  | .geu => y.ule x
  | .leu => x.ule y
  | .gtu => y.ult x

def concat (h l : BitVec n) : BitVec (n + n) := h ++ l

def lowPart (x : BitVec (n + n)) : BitVec n := x.setWidth n

def highPart (x : BitVec (n + n)) : BitVec n := (x >>> n).setWidth n

/-- A binary operation on values of its own width, where it is defined. -/
def BinOp.eval (op : BinOp) (x y : BitVec n) : Option (BitVec n) :=
  match op with
  | .add => some (x + y)
  | .sub => some (x - y)
  | .mul => some (x * y)
  | .div => if y = 0 ∨ (x = BitVec.intMin n ∧ y = BitVec.allOnes n) then none else some (x.sdiv y)
  | .divu => if y = 0 then none else some (x.udiv y)
  | .rem => if y = 0 ∨ (x = BitVec.intMin n ∧ y = BitVec.allOnes n) then none else some (x.srem y)
  | .remu => if y = 0 then none else some (x.umod y)
  | .and => some (x &&& y)
  | .or => some (x ||| y)
  | .xor => some (x ^^^ y)
  | .shl => if y.toNat < n then some (x <<< y.toNat) else none
  | .shr => if y.toNat < n then some (x >>> y.toNat) else none
  | .sar => if y.toNat < n then some (x.sshiftRight y.toNat) else none
  | .rotl => if y.toNat < n then some (x.rotateLeft y.toNat) else none
  | .rotr => if y.toNat < n then some (x.rotateRight y.toNat) else none
  | .andc => some (x &&& ~~~y)
  | .orc => some (x ||| ~~~y)
  | .eqv => some (~~~(x ^^^ y))
  | .nand => some (~~~(x &&& y))
  | .nor => some (~~~(x ||| y))
  | .muluh => some (highPart (x.setWidth (n + n) * y.setWidth (n + n)))
  | .mulsh => some (highPart (x.signExtend (n + n) * y.signExtend (n + n)))

/-- The low `k` bytes of `x`, in reverse order. -/
def bswap (k : Nat) (x : BitVec n) : BitVec n :=
  (List.range k).foldl (fun acc j => (acc <<< 8) ||| ((x >>> (8 * j)) &&& 0xff)) 0

/-- A unary operation on values of its own width, where it is defined. -/
def UnOp.eval (op : UnOp) (x : BitVec n) : Option (BitVec n) :=
  match op with
  | .ext8s => some ((x.setWidth 8).signExtend n)
  | .ext8u => some ((x.setWidth 8).setWidth n)
  | .ext16s => some ((x.setWidth 16).signExtend n)
  | .ext16u => some ((x.setWidth 16).setWidth n)
  | .ext32s => some ((x.setWidth 32).signExtend n)
  | .ext32u => some ((x.setWidth 32).setWidth n)
  | .bswap16 => if x.toNat < 2 ^ 16 then some (bswap 2 x) else none
  | .bswap32 => if x.toNat < 2 ^ 32 then some (bswap 4 x) else none
  | .bswap64 => some (bswap 8 x)
  | .not => some (~~~x)
  | .neg => some (-x)

def depositBits (x y : BitVec n) (pos len : Nat) : BitVec n :=
  let mask : BitVec n := (BitVec.twoPow n len - 1) <<< pos
  (x &&& ~~~mask) ||| ((y <<< pos) &&& mask)

/-- The quotient and remainder of a double word, where the quotient fits a word. -/
def Div2.eval (op : Div2) (lo hi d : BitVec n) : Option (List (BitVec n)) :=
  let num := concat hi lo
  match op with
  | .div2 =>
    let q := num.sdiv (d.signExtend (n + n))
    if d = 0 ∨ (lowPart q).signExtend (n + n) ≠ q then none
    else some [lowPart q, lowPart (num.srem (d.signExtend (n + n)))]
  | .divu2 =>
    let q := num.udiv (d.setWidth (n + n))
    if d = 0 ∨ (lowPart q).setWidth (n + n) ≠ q then none
    else some [lowPart q, lowPart (num.umod (d.setWidth (n + n)))]

/-- A double-word sum or difference, low part first. -/
def AddSub2.eval (op : AddSub2) (al ah bl bh : BitVec n) : List (BitVec n) :=
  let r := match op with
    | .add2 => concat ah al + concat bh bl
    | .sub2 => concat ah al - concat bh bl
  [lowPart r, highPart r]

/-- A double-word product, low part first. -/
def Mul2.eval (op : Mul2) (a b : BitVec n) : List (BitVec n) :=
  let r := match op with
    | .mulu2 => a.setWidth (n + n) * b.setWidth (n + n)
    | .muls2 => a.signExtend (n + n) * b.signExtend (n + n)
  [lowPart r, highPart r]

def LoadShape.extend (shape : LoadShape) (raw : BitVec 64) : BitVec n :=
  if shape.sign then (raw.setWidth shape.size.bits).signExtend n
  else (raw.setWidth shape.size.bits).setWidth n

end Values

variable {w : Nat}

def lo (ty : TCGType) (x : BitVec w) : BitVec (ty.bits w) := x.setWidth (ty.bits w)

/-- The word an operation writes for a result: 32-bit results are zero-extended. -/
def zext {n : Nat} (x : BitVec n) : BitVec w := x.setWidth w

/-- The content of a temp of type `ty`, without what lies above its type. -/
def trunc (ty : TCGType) (x : BitVec w) : BitVec w := zext (lo ty x)

/-- The values of the globals that a helper or an exception handler can see. -/
abbrev Snapshot (w : Nat) := List (Option (BitVec w))

/-- A guest memory access as the softmmu sees it. -/
structure GuestReq (w : Nat) where
  op : GuestOp
  shape : LoadShape
  isStore : Bool
  args : List (BitVec w)
  cargs : List (BitVec w)
  globals : Snapshot w
  deriving DecidableEq, Repr

/-- A helper call: `globals` is `none` for a helper that does not read them. -/
structure CallReq (w : Nat) where
  flags : BitVec w
  args : List (BitVec w)
  globals : Option (Snapshot w)
  deriving DecidableEq, Repr

/-- What a guest access answers; `raised` is an exception that leaves the block. -/
structure GuestResp (σ : Type) where
  state : σ
  raised : Bool
  data : BitVec 64

/-- What a helper answers: its results, and the globals it stores to. -/
structure CallResp (σ : Type) (w : Nat) where
  state : σ
  raised : Bool
  outs : Nat → BitVec w
  globals : Temp → Option (BitVec w)

/-- Everything outside the op stream. A host load reads the world and does not change it. -/
structure World (σ : Type) (w : Nat) where
  ld : σ → MemSize → BitVec w → BitVec 64
  st : σ → MemSize → BitVec w → BitVec w → σ
  guest : σ → GuestReq w → GuestResp σ
  call : σ → CallReq w → CallResp σ w
  linked : σ → Nat → Bool

/-- What a run does that the world can notice. -/
inductive Event (w : Nat)
  | load (shape : LoadShape) (addr : BitVec w)
  | store (size : MemSize) (addr val : BitVec w)
  | guest (req : GuestReq w)
  | call (req : CallReq w)
  | jump (l : Label)
  | exit (val : BitVec w)
  | gotoTb (idx : Nat)
  deriving DecidableEq, Repr

/-- What an instruction does, once its inputs are read. -/
inductive Action (w : Nat)
  | assign (vals : List (BitVec w))
  | forget
  | load (ty : TCGType) (shape : LoadShape) (addr : BitVec w)
  | store (size : MemSize) (addr val : BitVec w)
  | guest (op : GuestOp) (shape : LoadShape) (isStore : Bool) (args cargs : List (BitVec w))
  | call (flags : BitVec w) (args : List (BitVec w))
  | branch (target : Option Label)
  | exit (val : BitVec w)
  | gotoTb (idx : Nat)
  | stop
  deriving DecidableEq, Repr

def truncArgs (ctx : Context) (ts : List Temp) (vals : List (BitVec w)) : List (BitVec w) :=
  List.zipWith (fun t v => trunc (ctx.type t) v) ts vals

/-- What the instruction does on these input values; `none` where it is undefined. -/
def Instr.action (ctx : Context) (i : Instr w) (vals : List (BitVec w)) : Option (Action w) :=
  match i, vals with
  | .endOp, _ => some .stop
  | .discard _, _ => some .forget
  | .setLabel _, _ => some (.branch none)
  | .call _ ins flags, vals => some (.call flags (truncArgs ctx ins vals))
  | .br l, _ => some (.branch (some l))
  | .mov _ _ _, [x] => some (.assign [x])
  | .movi _ _ v, _ => some (.assign [v])
  | .setcond ty _ _ _ c, [x, y] =>
    some (.assign [if c.holds (lo ty x) (lo ty y) then 1 else 0])
  | .movcond ty _ _ _ _ _ c, [x, y, v1, v2] =>
    some (.assign [trunc ty (if c.holds (lo ty x) (lo ty y) then v1 else v2)])
  | .ld ty shape _ _ ofs, [b] => some (.load ty shape (b + ofs))
  | .st _ size _ _ ofs, [v, b] => some (.store size (b + ofs) (zext (v.setWidth size.bits)))
  | .bin op ty _ _ _, [x, y] =>
    (op.eval (lo ty x) (lo ty y)).map fun r => .assign [zext r]
  | .div2 op ty _ _ _ _ _, [l, h, d] =>
    (op.eval (lo ty l) (lo ty h) (lo ty d)).map fun rs => .assign (rs.map zext)
  | .deposit ty _ _ _ pos len, [x, y] =>
    some (.assign [zext (depositBits (lo ty x) (lo ty y) pos len)])
  | .brcond ty _ _ c l, [x, y] =>
    some (.branch (if c.holds (lo ty x) (lo ty y) then some l else none))
  | .addsub2 op ty _ _ _ _ _ _, [al, ah, bl, bh] =>
    some (.assign ((op.eval (lo ty al) (lo ty ah) (lo ty bl) (lo ty bh)).map zext))
  | .mul2 op ty _ _ _ _, [a, b] => some (.assign ((op.eval (lo ty a) (lo ty b)).map zext))
  | .brcond2 _ _ _ _ c l, [al, ah, bl, bh] =>
    some (.branch (if c.holds (concat (lo .i32 ah) (lo .i32 al)) (concat (lo .i32 bh) (lo .i32 bl))
      then some l else none))
  | .setcond2 _ _ _ _ _ c, [al, ah, bl, bh] =>
    some (.assign [if c.holds (concat (lo .i32 ah) (lo .i32 al)) (concat (lo .i32 bh) (lo .i32 bl))
      then 1 else 0])
  | .un op ty _ _, [x] => (op.eval (lo ty x)).map fun r => .assign [zext r]
  | .exitTb v, _ => some (.exit v)
  | .gotoTb k, _ => some (.gotoTb k)
  | .qemuLd op shape _ addr cargs, vals =>
    some (.guest op shape false (truncArgs ctx addr vals) cargs)
  | .qemuSt op size ins cargs, vals =>
    some (.guest op ⟨size, false⟩ true (truncArgs ctx ins vals) cargs)
  | .nop, _ | .nop1 _, _ | .nop2 .., _ | .nop3 .., _ | .nopn _, _ | .debugInsnStart _, _ =>
    some (.assign [])
  | _, _ => none

abbrev Contents (w : Nat) := Temp → Option (BitVec w)

structure Run (σ : Type) (w : Nat) where
  pc : Nat
  temps : Contents w
  world : σ
  trace : List (Event w)
  running : Bool

/-- Assign the outputs in order; an output without a value loses its content. -/
def Contents.write (c : Contents w) : List Temp → List (Option (BitVec w)) → Contents w
  | [], _ => c
  | t :: ts, vs => Contents.write (Function.update c t (vs.headD none)) ts vs.tail

def Contents.endBlock (ctx : Context) (c : Contents w) : Contents w :=
  fun t => if ctx.kept t then c t else none

/-- The globals, as a helper or an exception handler finds them. -/
def Contents.globals (ctx : Context) (c : Contents w) : Snapshot w :=
  (List.range ctx.nbGlobals).map fun t => (c t).map (trunc (ctx.type t))

def Contents.setGlobals (ctx : Context) (g : Temp → Option (BitVec w)) (c : Contents w) : Contents w :=
  fun t => if t < ctx.nbGlobals then (g t).or (c t) else c t

/-- The output words of a guest load: one, or a little-endian pair. -/
def guestOuts (op : GuestOp) (shape : LoadShape) (k : Nat) (data : BitVec 64) : List (BitVec w) :=
  if k = 2 then [data.setWidth w, (data >>> 32).setWidth w]
  else match op with
    | .new ty => [zext (shape.extend data : BitVec (ty.bits w))]
    | .old => [(shape.extend data : BitVec w)]

section Step
variable {σ : Type} (ctx : Context) (W : World σ w) (prog : List (Instr w))

def findLabel (l : Label) : Option Nat := prog.findIdx? (· == .setLabel l)

/-- Carry out an action for an instruction with these outputs. -/
def perform (outs : List Temp) (s : Run σ w) : Action w → Option (Run σ w)
  | .assign vals => some { s with pc := s.pc + 1, temps := s.temps.write outs (vals.map some) }
  | .forget => some { s with pc := s.pc + 1, temps := s.temps.write outs [] }
  | .load ty shape addr =>
    let val : BitVec (ty.bits w) := shape.extend (W.ld s.world shape.size addr)
    some { s with
      pc := s.pc + 1
      temps := s.temps.write outs [some (zext val)]
      trace := .load shape addr :: s.trace }
  | .store size addr val =>
    some { s with
      pc := s.pc + 1
      world := W.st s.world size addr val
      trace := .store size addr val :: s.trace }
  | .guest op shape isStore args cargs =>
    let req : GuestReq w := ⟨op, shape, isStore, args, cargs, s.temps.globals ctx⟩
    let resp := W.guest s.world req
    some { s with
      pc := s.pc + 1
      temps := if isStore then s.temps
        else s.temps.write outs ((guestOuts op shape outs.length resp.data).map some)
      world := resp.state
      trace := .guest req :: s.trace
      running := !resp.raised }
  | .call flags args =>
    let req : CallReq w :=
      ⟨flags, args, if noReadGlobals flags then none else some (s.temps.globals ctx)⟩
    let resp := W.call s.world req
    let temps := if noReadGlobals flags || noWriteGlobals flags then s.temps
      else s.temps.setGlobals ctx resp.globals
    some { s with
      pc := s.pc + 1
      temps := temps.write outs ((List.range outs.length).map fun k => some (resp.outs k))
      world := resp.state
      trace := .call req :: s.trace
      running := !resp.raised }
  | .branch none => some { s with pc := s.pc + 1, temps := s.temps.endBlock ctx }
  | .branch (some l) =>
    (findLabel prog l).map fun pc =>
      { s with pc := pc, temps := s.temps.endBlock ctx, trace := .jump l :: s.trace }
  | .exit val =>
    some { s with
      pc := s.pc + 1
      temps := s.temps.endBlock ctx
      trace := .exit val :: s.trace
      running := false }
  | .gotoTb k =>
    if W.linked s.world k then
      some { s with
        pc := s.pc + 1
        temps := s.temps.endBlock ctx
        trace := .gotoTb k :: s.trace
        running := false }
    else some { s with pc := s.pc + 1, temps := s.temps.endBlock ctx }
  | .stop => some { s with pc := s.pc + 1, running := false }

/-- One instruction; a run that has left the block stays where it is. -/
def step (s : Run σ w) : Option (Run σ w) :=
  if s.running then
    match prog[s.pc]? with
    | none => some { s with running := false }
    | some i => do
      let vals ← i.iargs.mapM s.temps
      let act ← i.action ctx vals
      perform ctx W prog i.oargs s act
  else some s

def run : Nat → Run σ w → Option (Run σ w)
  | 0, s => some s
  | n + 1, s => (run n s).bind (step ctx W prog)

end Step

/-- A run before its first instruction: the plain temporaries have no content. -/
structure Run.Initial {σ : Type} (ctx : Context) (s : Run σ w) : Prop where
  pc : s.pc = 0
  running : s.running = true
  plain : ∀ t, ctx.kept t = false → s.temps t = none

end GemDroid.Tcg
