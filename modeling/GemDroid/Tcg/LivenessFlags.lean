import GemDroid.Tcg.Liveness

/-! What the liveness pass does at each instruction, as a relation.

`Rewrite` lists the ways an instruction leaves the pass: kept with its bits, removed,
narrowed, or a padding no-op grown over the words a narrowed neighbour gave up. Everything
later proofs need about the flags is read off here once. -/
namespace GemDroid.Tcg

variable {b : Option ArgBits} {n : Nat}

variable {w : Nat} {ctx : Context}

variable {ops : List (Instr w)} {i : Instr w} {r : Walk w}

namespace LiveState
variable {L : LiveState} {t u : Temp}

@[simp] theorem kill_dead : (L.kill u).dead t = (decide (t = u) || L.dead t) := by
  by_cases h : t = u <;> simp [kill, h]

@[simp] theorem kill_mem : (L.kill u).mem t = (!decide (t = u) && L.mem t) := by
  by_cases h : t = u <;> simp [kill, h]

@[simp] theorem revive_dead : (L.revive u).dead t = (!decide (t = u) && L.dead t) := by
  by_cases h : t = u <;> simp [revive, h]

/-- The value of `t` is needed: an instruction reads it, or it must reach memory. -/
def Needs (L : LiveState) (t : Temp) : Prop := L.dead t = false ∨ L.mem t = true

theorem needs_iff : L.Needs t ↔ L.useless t = false := by
  cases hd : L.dead t <;> cases hm : L.mem t <;> simp [Needs, useless, hd, hm]

end LiveState

section
variable (i : Nat) (ts : List Temp) (L : LiveState) (b : ArgBits) (t : Temp)

theorem markOuts_dead : (markOuts i ts L b).1.dead t = (decide (t ∈ ts) || L.dead t) := by
  induction ts generalizing i L b with
  | nil => simp [markOuts]
  | cons u us ih => rw [markOuts, ih]; by_cases h : t = u <;> simp [h]

theorem markOuts_mem : (markOuts i ts L b).1.mem t = (!decide (t ∈ ts) && L.mem t) := by
  induction ts generalizing i L b with
  | nil => simp [markOuts]
  | cons u us ih => rw [markOuts, ih]; by_cases h : t = u <;> simp [h]

theorem markIns_dead : (markIns i ts L b).1.dead t = (!decide (t ∈ ts) && L.dead t) := by
  induction ts generalizing i L b with
  | nil => simp [markIns]
  | cons u us ih => rw [markIns, ih]; by_cases h : t = u <;> simp [h]

theorem markIns_mem : (markIns i ts L b).1.mem t = L.mem t := by
  induction ts generalizing i L b with
  | nil => simp [markIns]
  | cons u us ih => rw [markIns, ih]; rfl

end

/-- The instruction may read any global: a guest access, whose exception handler sees
them, or a helper that is not marked `TCG_CALL_NO_READ_GLOBALS`. -/
def Instr.readsGlobals : Instr w → Bool
  | .call _ _ flags => !noReadGlobals flags
  | i => i.sideEffects

open Instr

def Instr.writesGlobals : Instr w → Bool
  | .call _ _ flags => !(noWriteGlobals flags || noReadGlobals flags)
  | _ => false

theorem Instr.reads_of_writes (h : i.writesGlobals = true) : i.readsGlobals = true := by
  cases i <;> simp_all [writesGlobals, readsGlobals]

section
variable (i : Instr w) (L : LiveState) (t : Temp)

theorem between_dead : (i.between ctx L).dead t =
      (i.bbEnd || (i.writesGlobals && decide (t < ctx.nbGlobals)) || L.dead t) := by
  cases i with
  | call outs ins flags =>
    cases h1 : noReadGlobals flags <;> cases h2 : noWriteGlobals flags <;>
      simp [between, bbEnd, writesGlobals, LiveState.memGlobals, LiveState.deadGlobals, h1, h2]
  | _ =>
    simp [between, bbEnd, sideEffects, writesGlobals, LiveState.bbEnd, LiveState.memGlobals]

theorem between_mem : (i.between ctx L).mem t =
      if i.bbEnd then ctx.kept t else (i.readsGlobals && decide (t < ctx.nbGlobals)) || L.mem t := by
  cases i with
  | call outs ins flags =>
    cases h1 : noReadGlobals flags <;> cases h2 : noWriteGlobals flags <;>
      simp [between, bbEnd, readsGlobals, LiveState.memGlobals, LiveState.deadGlobals, h1, h2]
  | _ =>
    simp [between, bbEnd, sideEffects, readsGlobals, LiveState.bbEnd, LiveState.memGlobals]

theorem keepOp_dead : (keepOp ctx i L).1.dead t =
      (!decide (t ∈ i.iargs) && (i.bbEnd || (i.writesGlobals && decide (t < ctx.nbGlobals)) ||
        decide (t ∈ i.oargs) || L.dead t)) := by
  simp [keepOp, markIns_dead, between_dead, markOuts_dead, Bool.or_assoc]

theorem keepOp_mem : (keepOp ctx i L).1.mem t = if i.bbEnd then ctx.kept t
      else (i.readsGlobals && decide (t < ctx.nbGlobals)) || (!decide (t ∈ i.oargs) && L.mem t) := by
  simp [keepOp, markIns_mem, between_mem, markOuts_mem]

end

section Needs
variable {L : LiveState} {t : Temp}

theorem keepOp_needs_input (h : t ∈ i.iargs) : (keepOp ctx i L).1.Needs t := by
  left
  simp [keepOp_dead, h]

theorem keepOp_needs_kept (hb : i.bbEnd = true) (h : ctx.kept t = true) : (keepOp ctx i L).1.Needs t := by
  right
  simp [keepOp_mem, hb, h]

theorem keepOp_needs_global (hb : i.readsGlobals = true) (h : t < ctx.nbGlobals) : (keepOp ctx i L).1.Needs t := by
  right
  rw [keepOp_mem]
  split
  · exact Context.kept_of_global h
  · simp [hb, h]

theorem keepOp_needs_after (hb : i.bbEnd = false) (ho : t ∉ i.oargs) (h : L.Needs t) : (keepOp ctx i L).1.Needs t := by
  by_cases hg : i.writesGlobals = true ∧ t < ctx.nbGlobals
  · exact keepOp_needs_global (reads_of_writes hg.1) hg.2
  rcases h with h | h
  · left
    have hg' : (i.writesGlobals && decide (t < ctx.nbGlobals)) = false := by simpa using hg
    simp [keepOp_dead, hb, ho, h, hg']
  · right
    simp [keepOp_mem, hb, ho, h]

end Needs

/-- An instruction that only computes its outputs. -/
def Instr.droppable : Instr w → Bool
  | .call _ _ flags => noSideEffects flags
  | .discard _ => false
  | i => !i.sideEffects && !i.oargs.isEmpty

theorem Instr.nbArgs_ne_zero (h : i.droppable = true) : i.nbArgs ≠ 0 := by
  cases i <;> simp_all [droppable, nbArgs, oargs, nbCargs, sideEffects]

/-- A double-word operation and the single-word one that gives the half still needed. -/
inductive Narrows (L : LiveState) : Instr w → Instr w → Prop
  | addsub2 {op ty rl rh al ah bl bh} (high : ¬ L.Needs rh) (low : L.Needs rl) :
    Narrows L (.addsub2 op ty rl rh al ah bl bh) (.bin op.single ty rl al bl)
  | mulLow {op ty rl rh a b} (high : ¬ L.Needs rh) (low : L.Needs rl) :
    Narrows L (.mul2 op ty rl rh a b) (.bin .mul ty rl a b)
  | mulHigh {op ty rl rh a b} (high : L.Needs rh) (low : ¬ L.Needs rl) :
    Narrows L (.mul2 op ty rl rh a b) (.bin op.high ty rh a b)

/-- An instruction that the pass copies without writing its bits. -/
def Instr.unmarked : Instr w → Bool
  | .debugInsnStart _ | .nopn _ | .endOp | .discard _ => true
  | _ => false

/-- How an instruction leaves the pass, with the live state after and before it. -/
inductive Rewrite (ctx : Context) : Instr w → LiveState → Annotated w → LiveState → Prop
  | keep {i L b} (hb : (b = none ∧ i.unmarked = true) ∨ b = some (keepOp ctx i L).2) :
    Rewrite ctx i L ⟨i, b⟩ (keepOp ctx i L).1
  | remove {i L} (hd : i.droppable = true) (hu : ∀ t ∈ i.oargs, ¬ L.Needs t) :
    Rewrite ctx i L ⟨tcgSetNop i.nbArgs, none⟩ L
  | narrow {i j L} (hn : Narrows L i j) : Rewrite ctx i L ⟨j, some (keepOp ctx j L).2⟩ (keepOp ctx j L).1
  | pad {n b L} : Rewrite ctx .nop L ⟨tcgSetNop n, b⟩ L

/-- A stream with the result of the pass on it: the live state before it, and the stream
it leaves. -/
inductive Annotates (ctx : Context) : List (Instr w) → Walk w → Prop
  | nil : Annotates ctx [] (.funcEnd ctx, [])
  | cons {i rest o outs L L'} (tail : Annotates ctx rest (L, outs)) (head : Rewrite ctx i L o L') :
    Annotates ctx (i :: rest) (L', o :: outs)

theorem keepOp_noargs (L : LiveState) (ho : i.oargs = []) (hi : i.iargs = [])
    (hb : i.between ctx L = L) : (keepOp ctx i L).1 = L := by
  simp [keepOp, ho, hi, markOuts, markIns, hb]

theorem tcgSetNop_eq_nop : (tcgSetNop n : Instr w) = .nop ↔ n = 0 := by
  cases n <;> simp [tcgSetNop]

theorem keepOp_tcgSetNop (n : Nat) (L : LiveState) : (keepOp ctx (tcgSetNop n : Instr w) L).1 = L := by
  cases n <;> exact keepOp_noargs L rfl rfl rfl

/-- The live state before an instruction, read off the one that replaced it. -/
theorem Rewrite.live {o : Annotated w} {L L' : LiveState}
    (h : Rewrite ctx i L o L') : L' = (keepOp ctx o.instr L).1 := by
  cases h with
  | keep hb => rfl
  | remove hd hu | pad => exact (keepOp_tcgSetNop _ _).symm
  | narrow hn => rfl

theorem Rewrite.nop_inv {L L' : LiveState} (h : Rewrite ctx i L ⟨.nop, b⟩ L') : i = .nop ∧ L' = L := by
  generalize ho : (⟨.nop, b⟩ : Annotated w) = o at h
  cases h with
  | keep hb =>
    cases ho
    exact ⟨rfl, keepOp_noargs L rfl rfl rfl⟩
  | remove hd hu =>
    have hn := (Annotated.mk.inj ho).1
    exact absurd (tcgSetNop_eq_nop.1 hn.symm) (nbArgs_ne_zero hd)
  | narrow hn =>
    have hj := (Annotated.mk.inj ho).1
    subst hj
    cases hn
  | pad => exact ⟨rfl, rfl⟩

theorem Annotates.pad {L : LiveState}
    {outs : List (Annotated w)} (h : Annotates ctx ops (L, ⟨.nop, b⟩ :: outs)) (n : Nat) :
    Annotates ctx ops (L, ⟨tcgSetNop n, b⟩ :: outs) := by
  cases h with
  | cons tail head =>
    obtain ⟨rfl, rfl⟩ := head.nop_inv
    exact .cons tail .pad

section Pass
variable {F : Features} {r' : Walk w}

section
variable (h : Annotates ctx ops r)
include h

theorem annotates_keep : Annotates ctx (i :: ops) (keep ctx i r) :=
  .cons h (.keep (.inr rfl))

theorem annotates_remove (hd : i.droppable = true)
    (hu : i.oargs.all r.1.useless = true) : Annotates ctx (i :: ops) (remove i r) := by
  refine .cons h (.remove hd fun t ht => ?_)
  rw [LiveState.needs_iff, List.all_eq_true.1 hu t ht]
  simp

theorem annotates_narrow {j : Instr w}
    (hn : Narrows r.1 i j) (hr : narrow ctx j n r = .ok r') : Annotates ctx (i :: ops) r' := by
  unfold narrow at hr
  split at hr
  · rename_i b rest htail
    cases hr
    have h' : Annotates ctx ops (r.1, ⟨tcgSetNop n, b⟩ :: rest) := by
      apply Annotates.pad
      rw [← htail]
      exact h
    exact .cons h' (.narrow hn)
  · cases hr

theorem annotates_skip (hu : i.unmarked = true) (ho : i.oargs = []) (hi : i.iargs = []) (hb : i.between ctx r.1 = r.1) :
    Annotates ctx (i :: ops) (r.1, ⟨i, none⟩ :: r.2) := by
  have := Annotates.cons h (Rewrite.keep (i := i) (.inl ⟨rfl, hu⟩))
  rwa [keepOp_noargs r.1 ho hi hb] at this

end

theorem narrows_addsub2 {op : AddSub2} {ty : TCGType} {rl rh al ah bl bh : Temp} {L : LiveState}
    (high : L.useless rh = true) (low : L.useless rl = false) :
    Narrows (w := w) L (.addsub2 op ty rl rh al ah bl bh) (.bin op.single ty rl al bl) :=
  .addsub2 (by simp [LiveState.needs_iff, high]) (LiveState.needs_iff.2 low)

theorem annotates_step (h : Annotates ctx ops r) (hr : livenessStep F ctx i r = .ok r') :
    Annotates ctx (i :: ops) r' := by
  have default : ∀ j : Instr w, j.droppable = (!j.sideEffects && !j.oargs.isEmpty) →
      (if (!j.sideEffects && !j.oargs.isEmpty && j.oargs.all r.1.useless) = true
        then (.ok (remove j r) : Except LivenessFault (Walk w)) else .ok (keep ctx j r)) = .ok r' →
      Annotates ctx (j :: ops) r' := by
    intro j hj hr
    split at hr
    · rename_i hc
      rw [Bool.and_eq_true, ← hj] at hc
      cases hr
      exact annotates_remove h hc.1 hc.2
    · cases hr
      exact annotates_keep h
  cases i with
  | call outs ins flags =>
    simp only [livenessStep] at hr
    split at hr
    · rename_i hc
      rw [Bool.and_eq_true] at hc
      cases hr
      exact annotates_remove h hc.1 hc.2
    · cases hr
      exact annotates_keep h
  | debugInsnStart pc | nopn n | endOp =>
    cases hr
    exact annotates_skip h rfl rfl rfl rfl
  | discard t =>
    cases hr
    exact Annotates.cons h (Rewrite.keep (i := .discard t) (.inl ⟨rfl, rfl⟩))
  | addsub2 op ty rl rh al ah bl bh =>
    simp only [livenessStep] at hr
    split at hr
    · rename_i hh
      split at hr
      · rename_i hl
        cases hr
        exact annotates_remove h rfl (by simp [oargs, hh, hl])
      · rename_i hl
        exact annotates_narrow h (narrows_addsub2 hh (by simpa using hl)) hr
    · cases hr
      exact annotates_keep h
  | mul2 op ty rl rh a b =>
    simp only [livenessStep] at hr
    split at hr
    · rename_i hh
      have hh' : ¬ r.1.Needs rh := by simp [LiveState.needs_iff, hh]
      split at hr
      · rename_i hl
        cases hr
        exact annotates_remove h rfl (by simp [oargs, hh, hl])
      · rename_i hl
        exact annotates_narrow h (.mulLow hh' (LiveState.needs_iff.2 (by simpa using hl))) hr
    rename_i hh
    split at hr
    · rename_i hl
      rw [Bool.and_eq_true] at hl
      refine annotates_narrow h (.mulHigh (LiveState.needs_iff.2 (by simpa using hh)) ?_) hr
      simp [LiveState.needs_iff, hl.2]
    · cases hr
      exact annotates_keep h
  | _ => exact default _ rfl hr

theorem livenessFrom_annotates (hr : livenessFrom F ctx ops = .ok r) : Annotates ctx ops r := by
  induction ops generalizing r with
  | nil =>
    cases hr
    exact .nil
  | cons i rest ih =>
    rw [livenessFrom] at hr
    cases hrest : livenessFrom F ctx rest with
    | error e => rw [hrest] at hr; cases hr
    | ok r1 =>
      rw [hrest] at hr
      exact annotates_step (ih hrest) hr

end Pass

/-- A double-word operation, which the front end follows with a no-op. -/
def Instr.padded : Instr w → Bool
  | .addsub2 .. | .mul2 .. => true
  | _ => false

/-- Every `add2`, `sub2`, `mulu2` and `muls2` is followed by a no-op. -/
def Padded (ops : List (Instr w)) : Prop :=
  ∀ k i, ops[k]? = some i → i.padded = true → ops[k + 1]? = some .nop

theorem Padded.tail {rest : List (Instr w)} (h : Padded (i :: rest)) : Padded rest :=
  fun k j hj hp => h (k + 1) j hj hp

theorem livenessStep_ok (F : Features) (h : i.padded = true → ∃ b rest, r.2 = ⟨.nop, b⟩ :: rest) :
    ∃ r', livenessStep F ctx i r = .ok r' := by
  have hn : i.padded = true → ∀ j n, ∃ r', narrow ctx j n r = .ok r' := by
    intro hp j n
    obtain ⟨b, rest, hr⟩ := h hp
    exact ⟨_, by rw [narrow, hr]⟩
  unfold livenessStep
  simp only
  split
  case h_6 op ty rl rh al ah bl bh =>
    split
    · split
      · exact ⟨_, rfl⟩
      · exact hn rfl _ _
    · exact ⟨_, rfl⟩
  case h_7 op ty rl rh a b =>
    split
    · split
      · exact ⟨_, rfl⟩
      · exact hn rfl _ _
    · split
      · exact hn rfl _ _
      · exact ⟨_, rfl⟩
  all_goals first | exact ⟨_, rfl⟩ | (split <;> exact ⟨_, rfl⟩)

theorem livenessFrom_ok (F : Features) (h : Padded ops) : ∃ r, livenessFrom F ctx ops = .ok r := by
  induction ops with
  | nil => exact ⟨_, rfl⟩
  | cons i rest ih =>
    obtain ⟨r, hr⟩ := ih h.tail
    have hstep : ∃ r', livenessStep F ctx i r = .ok r' := by
      apply livenessStep_ok
      intro hp
      have hnext := h 0 i rfl hp
      cases rest with
      | nil => simp at hnext
      | cons j rest' =>
        have hj : j = .nop := by simpa using hnext
        subst hj
        rw [livenessFrom] at hr
        cases hr' : livenessFrom F ctx rest' with
        | error e => rw [hr'] at hr; cases hr
        | ok r1 =>
          rw [hr'] at hr
          cases hr
          exact ⟨_, _, rfl⟩
    obtain ⟨r', hr'⟩ := hstep
    exact ⟨r', by rw [livenessFrom, hr]; exact hr'⟩

theorem Annotates.states (h : Annotates ctx ops r) :
    ∃ Ls : Nat → LiveState, Ls ops.length = .funcEnd ctx ∧ r.2.length = ops.length ∧
      ∀ k i, ops[k]? = some i → ∃ o, r.2[k]? = some o ∧ Rewrite ctx i (Ls (k + 1)) o (Ls k) := by
  have key : ∃ Ls : Nat → LiveState, Ls 0 = r.1 ∧ Ls ops.length = .funcEnd ctx ∧ r.2.length = ops.length ∧
      ∀ k i, ops[k]? = some i → ∃ o, r.2[k]? = some o ∧ Rewrite ctx i (Ls (k + 1)) o (Ls k) := by
    induction h with
    | nil => exact ⟨fun _ => .funcEnd ctx, rfl, rfl, rfl, by simp⟩
    | @cons i rest o outs L L' tail head ih =>
      obtain ⟨Ls, h0, hend, hlen, hall⟩ := ih
      refine ⟨fun k => if k = 0 then L' else Ls (k - 1), rfl, ?_, by simpa using hlen, ?_⟩
      · simpa using hend
      · intro k j hj
        cases k with
        | zero =>
          cases hj
          refine ⟨o, rfl, ?_⟩
          simpa [h0] using head
        | succ k =>
          obtain ⟨o', ho', hr⟩ := hall k j (by simpa using hj)
          exact ⟨o', by simpa using ho', by simpa using hr⟩
  obtain ⟨Ls, -, hrest⟩ := key
  exact ⟨Ls, hrest⟩

end GemDroid.Tcg
