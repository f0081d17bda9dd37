import GemDroid.Tcg.Opcode

/-! `tcg_liveness_analysis`: the backward pass of `tcg.c`.

The pass walks the stream from its end with two flags for every temp: `dead`, no later
instruction of the block reads it, and `mem`, its value must be in memory before it is
assigned again. Instructions whose outputs nobody needs become no-ops, double-word
operations with an unused half become single ones, and every instruction kept gets the
bits `op_dead_args` and `op_sync_args` the register allocator works from. -/
namespace GemDroid.Tcg
open Function

structure LiveState where
  dead : Temp → Bool
  mem : Temp → Bool

namespace LiveState

def funcEnd (ctx : Context) : LiveState := ⟨fun _ => true, fun t => t < ctx.nbGlobals⟩

/-- `tcg_la_bb_end`: all temps are dead, globals and local temps should be in memory. -/
def bbEnd (ctx : Context) : LiveState := ⟨fun _ => true, ctx.kept⟩

def memGlobals (ctx : Context) (L : LiveState) : LiveState :=
  { L with mem := fun t => decide (t < ctx.nbGlobals) || L.mem t }

def deadGlobals (ctx : Context) (L : LiveState) : LiveState :=
  { L with dead := fun t => decide (t < ctx.nbGlobals) || L.dead t }

def kill (L : LiveState) (t : Temp) : LiveState :=
  ⟨update L.dead t true, update L.mem t false⟩

def revive (L : LiveState) (t : Temp) : LiveState :=
  { L with dead := update L.dead t false }

/-- The value of `t` is of no use: nobody reads it and it need not reach memory. -/
def useless (L : LiveState) (t : Temp) : Bool := L.dead t && !L.mem t

end LiveState

/-- The bits of an instruction, `op_dead_args` and `op_sync_args`. -/
structure ArgBits where
  dead : BitVec 16
  sync : BitVec 8
  deriving DecidableEq, Repr

structure Annotated (w : Nat) where
  instr : Instr w
  bits : Option ArgBits
  deriving DecidableEq, Repr

/-- `assert(s->gen_opc_buf[op_index + 1] == INDEX_op_nop)` has failed. -/
inductive LivenessFault
  | noNop
  deriving DecidableEq, Repr

/-- `TCG_TARGET_HAS_muluh_*` and `TCG_TARGET_HAS_mulsh_*`. -/
structure Features where
  muluh : TCGType → Bool
  mulsh : TCGType → Bool

def i386Features : Features := ⟨fun _ => false, fun _ => false⟩

/-- The loop over the output arguments, from argument `i` on. -/
def markOuts (i : Nat) : List Temp → LiveState → ArgBits → LiveState × ArgBits
  | [], L, b => (L, b)
  | t :: ts, L, b =>
    markOuts (i + 1) ts (L.kill t)
      ⟨if L.dead t then b.dead ||| .twoPow 16 i else b.dead, if L.mem t then b.sync ||| .twoPow 8 i else b.sync⟩

/-- The loop over the input arguments, from argument `i` on. -/
def markIns (i : Nat) : List Temp → LiveState → ArgBits → LiveState × ArgBits
  | [], L, b => (L, b)
  | t :: ts, L, b =>
    markIns (i + 1) ts (L.revive t) { b with dead := if L.dead t then b.dead ||| .twoPow 16 i else b.dead }

variable {w : Nat}

/-- What the instruction itself does to the flags, between its outputs and its inputs: the
end of a basic block, or a reader or writer of the globals. -/
def Instr.between (ctx : Context) (i : Instr w) (L : LiveState) : LiveState :=
  match i with
  | .call _ _ flags =>
    let L := if noReadGlobals flags then L else L.memGlobals ctx
    if noWriteGlobals flags || noReadGlobals flags then L else L.deadGlobals ctx
  | i =>
    if i.bbEnd then .bbEnd ctx
    else if i.sideEffects then L.memGlobals ctx
    else L

/-- `do_not_remove`, and `do_not_remove_call`. -/
def keepOp (ctx : Context) (i : Instr w) (L : LiveState) : LiveState × ArgBits :=
  let r := markOuts 0 i.oargs L ⟨0, 0⟩
  markIns i.oargs.length i.iargs (i.between ctx r.1) r.2

def tcgSetNop : Nat → Instr w
  | 0 => .nop
  | n + 1 => .nopn (n + 1)

abbrev Walk (w : Nat) := LiveState × List (Annotated w)

/-- Keep an instruction in front of the stream walked so far. -/
def keep (ctx : Context) (i : Instr w) (r : Walk w) : Walk w :=
  let k := keepOp ctx i r.1
  (k.1, ⟨i, some k.2⟩ :: r.2)

/-- `do_remove`: the instruction's argument words become those of a no-op. -/
def remove (i : Instr w) (r : Walk w) : Walk w :=
  (r.1, ⟨tcgSetNop i.nbArgs, none⟩ :: r.2)

/-- Keep the single-word `i` for a double-word operation, and turn the no-op after it into
one over the `n` argument words left over. -/
def narrow (ctx : Context) (i : Instr w) (n : Nat) (r : Walk w) : Except LivenessFault (Walk w) :=
  match r.2 with
  | ⟨.nop, b⟩ :: rest => .ok (keep ctx i (r.1, ⟨tcgSetNop n, b⟩ :: rest))
  | _ => .error .noNop

/-- The single-word operation with the low result. -/
def AddSub2.single : AddSub2 → BinOp
  | .add2 => .add
  | .sub2 => .sub

/-- The single-word operation with the high result. -/
def Mul2.high : Mul2 → BinOp
  | .mulu2 => .muluh
  | .muls2 => .mulsh

def Features.haveHigh (F : Features) (op : Mul2) (ty : TCGType) : Bool :=
  match op with
  | .mulu2 => F.muluh ty
  | .muls2 => F.mulsh ty

def livenessStep (F : Features) (ctx : Context) (i : Instr w) (r : Walk w) : Except LivenessFault (Walk w) :=
  let L := r.1
  match i with
  | .call outs _ flags =>
    if noSideEffects flags && outs.all L.useless then .ok (remove i r) else .ok (keep ctx i r)
  | .debugInsnStart _ | .nopn _ | .endOp => .ok (L, ⟨i, none⟩ :: r.2)
  | .discard t => .ok (L.kill t, ⟨i, none⟩ :: r.2)
  | .addsub2 op ty rl rh al _ bl _ =>
    if L.useless rh then
      if L.useless rl then .ok (remove i r)
      else narrow ctx (.bin op.single ty rl al bl) 3 r
    else .ok (keep ctx i r)
  | .mul2 op ty rl rh a b =>
    if L.useless rh then
      if L.useless rl then .ok (remove i r)
      else narrow ctx (.bin .mul ty rl a b) 1 r
    else if F.haveHigh op ty && L.useless rl then narrow ctx (.bin op.high ty rh a b) 1 r
    else .ok (keep ctx i r)
  | i =>
    if !i.sideEffects && !i.oargs.isEmpty && i.oargs.all L.useless then .ok (remove i r)
    else .ok (keep ctx i r)

def livenessFrom (F : Features) (ctx : Context) : List (Instr w) → Except LivenessFault (Walk w)
  | [] => .ok (.funcEnd ctx, [])
  | i :: rest => do
    let r ← livenessFrom F ctx rest
    livenessStep F ctx i r

def tcgLivenessAnalysis (F : Features) (ctx : Context) (ops : List (Instr w)) :
    Except LivenessFault (List (Annotated w)) :=
  (livenessFrom F ctx ops).map (·.2)

end GemDroid.Tcg
