import GemDroid.Lib.Words
import GemDroid.Tcg.LivenessFlags
import GemDroid.Tcg.Semantics

/-! The stream that the liveness pass leaves means what the stream it was given means.

Both streams have the same length, and the two runs go through them side by side: at every
point they agree on the temps the pass still calls needed. The traces are compared without
the host loads and the helper calls marked free of side effects, which is what the pass
may drop. -/
namespace GemDroid.Tcg
open Function Option

variable {n : Nat}

variable {w : Nat} {ctx : Context} {σ : Type}

variable {s p s' : Run σ w} {a : Action w} {c : Contents w} {vals : List (BitVec w)} {i : Instr w}
  {W : World σ w}

section Contents
variable {c' : Contents w} {ts : List Temp} {vs : List (Option (BitVec w))} {u : Temp}

theorem Contents.write_of_not_mem (h : u ∉ ts) : c.write ts vs u = c u := by
  induction ts generalizing c vs with
  | nil => rfl
  | cons t ts ih =>
    rw [write, ih fun hm => h (List.mem_cons_of_mem _ hm)]
    exact update_of_ne (fun he => h (by simp [he])) _ _

/-- Writing the same outputs makes the contents equal there, and keeps them equal elsewhere. -/
theorem Contents.write_congr (h : u ∉ ts → c u = c' u) : c.write ts vs u = c'.write ts vs u := by
  induction ts generalizing c c' vs with
  | nil => exact h (by simp)
  | cons t ts ih =>
    apply ih
    intro hu
    by_cases ht : u = t
    · subst ht; simp
    · rw [update_of_ne ht, update_of_ne ht]
      exact h (by simp [ht, hu])

theorem Contents.endBlock_congr (h : ∀ t, ctx.kept t = true → c t = c' t) : c.endBlock ctx = c'.endBlock ctx := by
  funext t
  by_cases ht : ctx.kept t = true
  · simp [endBlock, ht, h t ht]
  · simp [endBlock, ht]

theorem Contents.globals_congr (h : ∀ t, t < ctx.nbGlobals → c t = c' t) : c.globals ctx = c'.globals ctx := by
  simp only [globals, List.map_inj_left, List.mem_range]
  intro t ht
  rw [h t ht]

theorem mapM_contents_congr (h : ∀ t ∈ ts, c t = c' t) : ts.mapM c = ts.mapM c' := by
  induction ts with
  | nil => rfl
  | cons t ts ih =>
    simp [List.mapM_cons, h t List.mem_cons_self, ih (List.forall_mem_cons.1 h).2]

end Contents

open Contents

def Action.endsBlock : Action w → Bool
  | .branch _ | .exit _ | .gotoTb _ => true
  | _ => false

def Action.readsGlobals : Action w → Bool
  | .guest .. => true
  | .call flags _ => !noReadGlobals flags
  | _ => false

/-- The action only computes outputs, as far as the world can tell. -/
def Action.quiet : Action w → Bool
  | .assign _ | .load .. => true
  | .call flags _ => noSideEffects flags
  | _ => false

theorem Action.endsBlock_of_quiet (h : a.quiet = true) : a.endsBlock = false := by
  cases a <;> first | rfl | cases h

def Action.assigns : Action w → Bool
  | .assign _ | .forget | .load .. | .call .. => true
  | .guest _ _ isStore _ _ => !isStore
  | _ => false

section Flags

theorem action_flags (h : i.action ctx vals = some a) : a.endsBlock = i.bbEnd ∧ a.readsGlobals = i.readsGlobals ∧
      (i.droppable = true → a.quiet = true) ∧ (a.assigns = false → i.oargs = []) := by
  unfold Instr.action at h
  split at h <;> simp only [Option.some.injEq, map_eq_some_iff, reduceCtorEq] at h
  all_goals first
    | (subst h; exact ⟨rfl, rfl, fun hd => hd, fun _ => rfl⟩)
    | (subst h; exact ⟨rfl, rfl, fun hd => hd, fun ha => by cases ha⟩)
    | (subst h; exact ⟨rfl, rfl, fun _ => rfl, fun _ => rfl⟩)
    | (obtain ⟨_, _, rfl⟩ := h; exact ⟨rfl, rfl, fun _ => rfl, fun ha => by cases ha⟩)

end Flags

/-- A helper marked `TCG_CALL_NO_SIDE_EFFECTS` can be suppressed when its results are not
used: it leaves the world and the globals alone and returns. -/
def World.Suppressible (W : World σ w) : Prop :=
  ∀ s req, noSideEffects req.flags = true →
    (W.call s req).state = s ∧ (W.call s req).raised = false ∧ ∀ t, (W.call s req).globals t = none

/-- The events the pass must keep: all but host loads and helpers free of side effects. -/
def Event.observable : Event w → Bool
  | .load .. => false
  | .call req => !noSideEffects req.flags
  | _ => true

/-- Two runs at the same point that agree on the temps of `N`. -/
structure Agree (N : Temp → Prop) (s p : Run σ w) : Prop where
  pc : s.pc = p.pc
  world : s.world = p.world
  running : s.running = p.running
  trace : s.trace.filter Event.observable = p.trace.filter Event.observable
  temps : ∀ t, N t → s.temps t = p.temps t

section Perform
variable {prog prog' : List (Instr w)} {outs : List Temp} {N N' : Temp → Prop}

/-- The same action from runs that agree: they agree after it on what was needed, provided
they agreed on what the action shows to the world and on what survives the block. -/
theorem perform_agree (N' : Temp → Prop) (h : Agree N s p) (hlabel : ∀ l, findLabel prog l = findLabel prog' l)
    (hread : a.readsGlobals = true → ∀ t, t < ctx.nbGlobals → N t)
    (hend : a.endsBlock = true → ∀ t, ctx.kept t = true → N t)
    (hpass : a.endsBlock = false → ∀ t, t ∉ outs → N' t → N t) (hassign : a.assigns = false → outs = [])
    (hs : perform ctx W prog outs s a = some s') : ∃ p', perform ctx W prog' outs p a = some p' ∧ Agree N' s' p' := by
  have hglob : a.readsGlobals = true → s.temps.globals ctx = p.temps.globals ctx := fun hr =>
    globals_congr fun t ht => h.temps t (hread hr t ht)
  have hblock : a.endsBlock = true → s.temps.endBlock ctx = p.temps.endBlock ctx := fun he =>
    endBlock_congr fun t ht => h.temps t (hend he t ht)
  have hwrite : a.endsBlock = false → ∀ vs t, N' t →
      s.temps.write outs vs t = p.temps.write outs vs t := fun he vs t ht =>
    write_congr fun hu => h.temps t (hpass he t hu ht)
  have hsame : a.endsBlock = false → a.assigns = false → ∀ t, N' t → s.temps t = p.temps t :=
    fun he ha t ht => h.temps t (hpass he t (by simp [hassign ha]) ht)
  have htrace : ∀ e, (e :: s.trace).filter Event.observable =
      (e :: p.trace).filter Event.observable := fun e => by simp [List.filter_cons, h.trace]
  cases a with
  | assign vals | forget =>
    cases hs
    exact ⟨_, rfl, by simp [h.pc], h.world, h.running, h.trace, hwrite rfl _⟩
  | load ty shape addr =>
    cases hs
    refine ⟨_, rfl, by simp [h.pc], h.world, h.running, htrace _, ?_⟩
    rw [h.world]
    exact hwrite rfl _
  | store size addr val =>
    cases hs
    exact ⟨_, rfl, by simp [h.pc], by simp [h.world], h.running, htrace _, hsame rfl rfl⟩
  | guest op shape isStore args cargs =>
    cases hs
    refine ⟨_, rfl, by simp [h.pc], ?_, ?_, ?_, ?_⟩
    · simp [h.world, hglob rfl]
    · simp [h.world, hglob rfl]
    · rw [hglob rfl]
      exact htrace _
    · intro t ht
      rw [h.world, hglob rfl]
      cases isStore with
      | true => exact hsame rfl rfl t ht
      | false => exact hwrite rfl _ t ht
  | call flags args =>
    cases hs
    have hreq : (if noReadGlobals flags then none else some (s.temps.globals ctx)) =
        (if noReadGlobals flags then none else some (p.temps.globals ctx)) := by
      cases hf : noReadGlobals flags with
      | true => rfl
      | false => simp [hglob (by simp [Action.readsGlobals, hf])]
    refine ⟨_, rfl, by simp [h.pc], ?_, ?_, ?_, ?_⟩
    · simp [h.world, hreq]
    · simp [h.world, hreq]
    · rw [hreq]
      exact htrace _
    · intro t ht
      rw [h.world, hreq]
      refine write_congr fun hu => ?_
      have htemp := h.temps t (hpass rfl t hu ht)
      split
      · exact htemp
      · simp [setGlobals, htemp]
  | branch target =>
    cases target with
    | none =>
      cases hs
      exact ⟨_, rfl, by simp [h.pc], h.world, h.running, h.trace, fun t _ => by simp [hblock rfl]⟩
    | some l =>
      simp only [perform, map_eq_some_iff] at hs
      obtain ⟨pc, hpc, rfl⟩ := hs
      refine ⟨{ p with pc := pc, temps := p.temps.endBlock ctx, trace := .jump l :: p.trace }, ?_,
        rfl, h.world, h.running, htrace _, fun t _ => by simp [hblock rfl]⟩
      simp [perform, ← hlabel, hpc]
  | exit val =>
    cases hs
    exact ⟨_, rfl, by simp [h.pc], h.world, rfl, htrace _, fun t _ => by simp [hblock rfl]⟩
  | gotoTb k =>
    have hl : W.linked s.world k = W.linked p.world k := by rw [h.world]
    simp only [perform, hl] at hs ⊢
    cases hk : W.linked p.world k with
    | true =>
      rw [hk] at hs
      cases hs
      exact ⟨_, rfl, by simp [h.pc], h.world, rfl, htrace _, fun t _ => by simp [hblock rfl]⟩
    | false =>
      rw [hk] at hs
      cases hs
      exact ⟨_, rfl, by simp [h.pc], h.world, h.running, h.trace, fun t _ => by simp [hblock rfl]⟩
  | stop =>
    cases hs
    exact ⟨_, rfl, by simp [h.pc], h.world, rfl, h.trace, hsame rfl rfl⟩

theorem perform_quiet (hW : W.Suppressible) (h : Agree N s p) (hrun : s.running = true)
    (ha : a.quiet = true) (hs : perform ctx W prog outs s a = some s') (hout : ∀ t ∈ outs, ¬ N t) :
    Agree N s' { p with pc := p.pc + 1 } := by
  have hwrite : ∀ vs t, N t → s.temps.write outs vs t = p.temps t := fun vs t ht => by
    rw [write_of_not_mem fun hm => hout t hm ht, h.temps t ht]
  cases a with
  | assign vals =>
    cases hs
    exact ⟨by simp [h.pc], h.world, h.running, h.trace, hwrite _⟩
  | load ty shape addr =>
    cases hs
    exact ⟨by simp [h.pc], h.world, h.running, by simpa [Event.observable] using h.trace, hwrite _⟩
  | call flags args =>
    cases hs
    have hflag : noSideEffects flags = true := ha
    have hc := hW s.world ⟨flags, args, if noReadGlobals flags then none
      else some (s.temps.globals ctx)⟩ hflag
    refine ⟨by simp [h.pc], hc.1.trans h.world, ?_, ?_, ?_⟩
    · simp [hc.2.1, ← h.running, hrun]
    · simpa [Event.observable, hflag] using h.trace
    · intro t ht
      refine (write_of_not_mem fun hm => hout t hm ht).trans ?_
      rw [← h.temps t ht]
      split
      · rfl
      · simp [setGlobals, hc.2.2]
  | _ => cases ha

theorem perform_pc (ha : a.endsBlock = false) (hs : perform ctx W prog outs s a = some s') : s'.pc = s.pc + 1 := by
  cases a <;> first | (cases hs; rfl) | cases ha

end Perform

section Narrow

theorem lowPart_concat (h l : BitVec n) : lowPart (concat h l) = l := by
  simp [lowPart, concat, BitVec.setWidth_append]

theorem lowPart_addsub2 (op : AddSub2) (al ah bl bh : BitVec n) :
    ∃ y, op.eval al ah bl bh = [(op.single.eval al bl).getD 0, y] := by
  cases op with
  | add2 =>
    refine ⟨_, congrArg (· :: _) ?_⟩
    simp only [lowPart, BitVec.setWidth_add _ _ (Nat.le_add_left n n)]
    simp [← lowPart.eq_1, lowPart_concat, AddSub2.single, BinOp.eval]
  | sub2 =>
    refine ⟨_, congrArg (· :: _) ?_⟩
    simp only [lowPart, Words.setWidth_sub _ _ (Nat.le_add_left n n)]
    simp [← lowPart.eq_1, lowPart_concat, AddSub2.single, BinOp.eval]

theorem lowPart_mul2 (op : Mul2) (a b : BitVec n) : op.eval a b = [a * b, (op.high.eval a b).getD 0] := by
  cases op with
  | mulu2 =>
    refine congrArg (· :: _) ?_
    simp [lowPart, BitVec.setWidth_mul _ _ (Nat.le_add_left n n)]
  | muls2 =>
    refine congrArg (· :: _) ?_
    simp [lowPart, BitVec.setWidth_mul _ _ (Nat.le_add_left n n), Words.setWidth_signExtend _ (Nat.le_add_left n n)]

variable {L : LiveState} {j : Instr w}

theorem mapM_two {t u : Temp} (h : [t, u].mapM c = some vals) : ∃ x y, c t = some x ∧ c u = some y ∧ vals = [x, y] := by
  simp only [List.mapM_cons, List.mapM_nil, bind_eq_bind, bind_eq_some_iff, pure_def, Option.some.injEq] at h
  obtain ⟨x, hx, _, ⟨y, hy, _, rfl, rfl⟩, rfl⟩ := h
  exact ⟨x, y, hx, hy, rfl⟩

theorem mapM_four {t u v z : Temp} (h : [t, u, v, z].mapM c = some vals) :
    ∃ a b d e, c t = some a ∧ c u = some b ∧ c v = some d ∧ c z = some e ∧ vals = [a, b, d, e] := by
  simp only [List.mapM_cons, List.mapM_nil, bind_eq_bind, bind_eq_some_iff, pure_def, Option.some.injEq] at h
  obtain ⟨a, ha, _, ⟨b, hb, _, ⟨d, hd, _, ⟨e, he, _, rfl, rfl⟩, rfl⟩, rfl⟩, rfl⟩ := h
  exact ⟨a, b, d, e, ha, hb, hd, he, rfl⟩

/-- The narrowed instruction assigns to its output what the double-word one assigns there,
and the other output is not needed. -/
theorem narrows_action (hn : Narrows L i j) (hv : i.iargs.mapM c = some vals) (ha : i.action ctx vals = some a) :
    ∃ vals' x y, j.iargs.mapM c = some vals' ∧ j.action ctx vals' = some (.assign [x]) ∧
      a = .assign y ∧ ∀ (c' : Contents w) t, L.Needs t →
        c'.write i.oargs (y.map some) t = c'.write j.oargs [some x] t := by
  have second : ∀ (c' : Contents w) (r r' t : Temp) (x y : BitVec w), t ≠ r' →
      c'.write [r, r'] [some x, some y] t = c'.write [r] [some x] t := by
    intro c' r r' t x y ht
    simp [write, update_of_ne ht]
  have first : ∀ (c' : Contents w) (r r' t : Temp) (x y : BitVec w), t ≠ r →
      c'.write [r, r'] [some x, some y] t = c'.write [r'] [some y] t := by
    intro c' r r' t x y ht
    by_cases hr : t = r'
    · simp [write, hr]
    · simp [write, update_of_ne ht, update_of_ne hr]
  cases hn with
  | @addsub2 op ty rl rh al ah bl bh high low =>
    obtain ⟨xal, xah, xbl, xbh, hal, hah, hbl, hbh, rfl⟩ := mapM_four hv
    obtain ⟨y, hy⟩ := lowPart_addsub2 op (lo ty xal) (lo ty xah) (lo ty xbl) (lo ty xbh)
    refine ⟨[xal, xbl], zext ((op.single.eval (lo ty xal) (lo ty xbl)).getD 0), _,
      by simp [Instr.iargs, hal, hbl], ?_, (Option.some.inj ha).symm, ?_⟩
    · cases op <;> rfl
    · intro c' t ht
      rw [hy]
      cases op <;> exact second c' rl rh t _ _ (fun he => high (he ▸ ht))
  | @mulLow op ty rl rh x y high low =>
    obtain ⟨xa, xb, hxa, hxb, rfl⟩ := mapM_two hv
    refine ⟨[xa, xb], _, _, by simp [Instr.iargs, hxa, hxb], rfl, (Option.some.inj ha).symm, ?_⟩
    intro c' t ht
    rw [lowPart_mul2]
    exact second c' rl rh t _ _ (fun he => high (he ▸ ht))
  | @mulHigh op ty rl rh x y high low =>
    obtain ⟨xa, xb, hxa, hxb, rfl⟩ := mapM_two hv
    refine ⟨[xa, xb], zext ((op.high.eval (lo ty xa) (lo ty xb)).getD 0), _,
      by simp [Instr.iargs, hxa, hxb], ?_, (Option.some.inj ha).symm, ?_⟩
    · cases op <;> rfl
    · intro c' t ht
      rw [lowPart_mul2]
      exact first c' rl rh t _ _ (fun he => low (he ▸ ht))

end Narrow

section Nop

theorem tcgSetNop_iargs : (tcgSetNop n : Instr w).iargs.mapM c = some [] := by
  cases n <;> rfl

theorem tcgSetNop_oargs : (tcgSetNop n : Instr w).oargs = [] := by
  cases n <;> rfl

theorem tcgSetNop_action : (tcgSetNop n : Instr w).action ctx [] = some (.assign []) := by
  cases n <;> rfl

end Nop

section Simulation
variable {ops : List (Instr w)} {outs : List (Annotated w)} {Ls : Nat → LiveState}

def stream (outs : List (Annotated w)) : List (Instr w) := outs.map (·.instr)

/-- The live state of every point, and what became of every instruction. -/
structure Walked (ctx : Context) (ops : List (Instr w)) (outs : List (Annotated w))
    (Ls : Nat → LiveState) : Prop where
  length : outs.length = ops.length
  last : Ls ops.length = .funcEnd ctx
  rewrite : ∀ k i, ops[k]? = some i → ∃ o, outs[k]? = some o ∧ Rewrite ctx i (Ls (k + 1)) o (Ls k)

theorem Rewrite.setLabel_iff {o : Annotated w} {L L' : LiveState} {l : Label}
    (h : Rewrite ctx i L o L') : i = .setLabel l ↔ o.instr = .setLabel l := by
  cases h with
  | keep hb => rfl
  | @remove i L hd hu =>
    have hn := Instr.nbArgs_ne_zero hd
    refine ⟨fun hi => ?_, fun hi => ?_⟩
    · subst hi
      cases hd
    · cases hk : i.nbArgs with
      | zero => exact absurd hk hn
      | succ k => rw [hk] at hi; cases hi
  | narrow hn => cases hn <;> simp
  | @pad n b => cases n <;> simp [tcgSetNop]

section
variable (h : Walked ctx ops outs Ls)
include h

theorem Walked.findLabel (l : Label) : findLabel ops l = findLabel (stream outs) l := by
  have hmap : ops.map (· == .setLabel l) = (stream outs).map (· == .setLabel l) := by
    apply List.ext_getElem?
    intro k
    rw [stream, List.getElem?_map, List.getElem?_map, List.getElem?_map]
    cases hk : ops[k]? with
    | none =>
      have : outs[k]? = none := by
        rw [List.getElem?_eq_none_iff] at hk ⊢
        rw [h.length]
        exact hk
      simp [this]
    | some i =>
      obtain ⟨o, ho, hr⟩ := h.rewrite k i hk
      rw [ho]
      simp only [map_some, Option.some.injEq]
      rw [Bool.eq_iff_iff, beq_iff_eq, beq_iff_eq]
      exact hr.setLabel_iff
  have hid : ∀ l' : List (Instr w), Tcg.findLabel l' l = (l'.map (· == .setLabel l)).findIdx? id := by
    intro l'
    rw [Tcg.findLabel, List.findIdx?_map]
    rfl
  rw [hid, hid, hmap]

theorem Walked.getElem? {k : Nat} (hk : ops[k]? = none) : (stream outs)[k]? = none := by
  rw [List.getElem?_eq_none_iff] at hk ⊢
  simpa [stream, h.length] using hk

theorem Walked.step_agree (hW : W.Suppressible) (ha : Agree (Ls s.pc).Needs s p) (hs : step ctx W ops s = some s') :
    ∃ p', step ctx W (stream outs) p = some p' ∧ Agree (Ls s'.pc).Needs s' p' := by
  unfold step at hs ⊢
  rw [← ha.running, ← ha.pc]
  cases hrun : s.running with
  | false =>
    rw [hrun] at hs
    cases hs
    exact ⟨p, rfl, ha⟩
  | true =>
    rw [hrun] at hs
    simp only [if_true] at hs ⊢
    cases hi : ops[s.pc]? with
    | none =>
      rw [hi] at hs
      cases hs
      rw [h.getElem? hi]
      exact ⟨_, rfl, rfl, ha.world, rfl, ha.trace, ha.temps⟩
    | some i =>
      rw [hi] at hs
      simp only [bind_eq_bind, bind_eq_some_iff] at hs
      obtain ⟨vals, hvals, act, hact, hs⟩ := hs
      obtain ⟨o, ho, hr⟩ := h.rewrite _ _ hi
      generalize hL : Ls s.pc = L at hr
      have hflags := action_flags hact
      have hoi : (stream outs)[s.pc]? = some o.instr := by simp [stream, ho]
      rw [hoi]
      simp only [bind_eq_bind, bind_eq_some_iff]
      cases hr with
      | keep hb =>
        rw [hL] at ha
        have hread : i.iargs.mapM p.temps = some vals := by
          rw [← hvals]
          exact (mapM_contents_congr fun t ht => ha.temps t (keepOp_needs_input ht)).symm
        have hpc : act.endsBlock = false → s'.pc = s.pc + 1 := fun he => perform_pc he hs
        obtain ⟨p', hp', ha'⟩ := perform_agree (Ls s'.pc).Needs ha h.findLabel
          (fun hg t ht => keepOp_needs_global (hflags.2.1 ▸ hg) ht)
          (fun he t ht => keepOp_needs_kept (hflags.1 ▸ he) ht)
          (fun he t ht hn => keepOp_needs_after (hflags.1 ▸ he) ht (hpc he ▸ hn))
          hflags.2.2.2 hs
        exact ⟨p', ⟨vals, hread, act, hact, hp'⟩, ha'⟩
      | remove hd hu =>
        have hquiet := hflags.2.2.1 hd
        have hpc := perform_pc (Action.endsBlock_of_quiet hquiet) hs
        rw [hL] at ha
        refine ⟨_, ⟨[], tcgSetNop_iargs, .assign [], tcgSetNop_action, rfl⟩, ?_⟩
        rw [tcgSetNop_oargs, hpc]
        exact perform_quiet hW ha hrun hquiet hs hu
      | @narrow _ j _ hn =>
        rw [hL] at ha
        obtain ⟨vals', x, y, hread, hj, rfl, hwrite⟩ := narrows_action hn hvals hact
        cases hs
        have hjflags := action_flags hj
        have hread' : j.iargs.mapM p.temps = some vals' := by
          rw [← hread]
          exact (mapM_contents_congr fun t ht => ha.temps t (keepOp_needs_input ht)).symm
        obtain ⟨p', hp', ha'⟩ := perform_agree (Ls (s.pc + 1)).Needs ha h.findLabel
          (fun hg t ht => keepOp_needs_global (hjflags.2.1 ▸ hg) ht)
          (fun he t ht => keepOp_needs_kept (hjflags.1 ▸ he) ht)
          (fun he t ht hn => keepOp_needs_after (hjflags.1 ▸ he) ht hn)
          hjflags.2.2.2 (s := s) (a := .assign [x]) rfl
        refine ⟨p', ⟨vals', hread', _, hj, hp'⟩, ha'.pc, ha'.world, ha'.running, ha'.trace, ?_⟩
        intro t ht
        exact (hwrite s.temps t ht).trans (ha'.temps t ht)
      | pad =>
        cases hact
        cases hs
        rw [hL] at ha
        refine ⟨_, ⟨[], tcgSetNop_iargs, .assign [], tcgSetNop_action, rfl⟩, ?_⟩
        rw [tcgSetNop_oargs]
        exact ⟨by simp [ha.pc], ha.world, ha.running, ha.trace, ha.temps⟩

theorem Walked.run_agree (hW : W.Suppressible) (hs : run ctx W ops n s = some s') :
    ∃ p', run ctx W (stream outs) n s = some p' ∧ Agree (Ls s'.pc).Needs s' p' := by
  induction n generalizing s' with
  | zero =>
    cases hs
    exact ⟨s, rfl, rfl, rfl, rfl, rfl, fun _ _ => rfl⟩
  | succ n ih =>
    simp only [run, bind_eq_some_iff] at hs ⊢
    obtain ⟨s1, hs1, hstep⟩ := hs
    obtain ⟨p1, hp1, ha⟩ := ih hs1
    obtain ⟨p', hp', ha'⟩ := h.step_agree hW ha hstep
    exact ⟨p', ⟨p1, hp1, hp'⟩, ha'⟩

end

end Simulation

end GemDroid.Tcg
