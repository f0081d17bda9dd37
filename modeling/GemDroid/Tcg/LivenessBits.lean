import GemDroid.Tcg.LivenessSound

/-! The bits of the liveness pass, and the pass as a whole.

A dead bit promises that the register holding an argument can be reused: before any later
read, the temp is assigned, or the block ends, or a helper may have written the globals, so
that a reader looks elsewhere. A sync bit is there whenever the value must be in memory
before the temp is assigned again. -/
namespace GemDroid.Tcg
open List List.Sublist

variable {Ls : Nat → LiveState} {u t : Temp} {b : ArgBits} {m j : Nat}

variable {w : Nat} {ctx : Context} {σ : Type}

variable {outs : List (Annotated w)} {ops : List (Instr w)}

/-- After the instruction a reader of `t` does not look for the value that `t` held before
it: the instruction assigns `t`, or the only copy left is the one in memory. -/
def Instr.Ends (ctx : Context) (i : Instr w) (t : Temp) : Prop :=
  t ∈ i.oargs ∨ i.bbEnd = true ∨ (i.writesGlobals = true ∧ t < ctx.nbGlobals)

/-- The value of `t` must be in memory when the instruction is reached. -/
def Instr.Syncs (ctx : Context) (i : Instr w) (t : Temp) : Prop :=
  (i.bbEnd = true ∧ ctx.kept t = true) ∨ (i.readsGlobals = true ∧ t < ctx.nbGlobals)

/-- No instruction reads an argument marked dead before something ends its value. -/
def DeadBits (ctx : Context) (outs : List (Annotated w)) : Prop :=
  ∀ (k : Nat) (o : Annotated w) (b : ArgBits) (n : Nat) (t : Temp), outs[k]? = some o → o.bits = some b → b.dead.getLsbD n = true →
    (o.instr.oargs ++ o.instr.iargs)[n]? = some t →
    ∀ (j : Nat) (o' : Annotated w), k < j → outs[j]? = some o' → t ∈ o'.instr.iargs →
      ∃ (m : Nat) (om : Annotated w), (if n < o.instr.oargs.length then k < m else k ≤ m) ∧ m < j ∧
        outs[m]? = some om ∧ om.instr.Ends ctx t

/-- An instruction that assigns a temp is marked to sync it whenever it must be in memory
later, at an instruction of the stream or at its end, and is not assigned before. -/
def SyncBits (ctx : Context) (outs : List (Annotated w)) : Prop :=
  ∀ (k : Nat) (o : Annotated w) (n : Nat) (t : Temp), outs[k]? = some o →
    o.instr.unmarked = false → o.instr.oargs[n]? = some t →
    ∀ j : Nat, k < j → ((∃ o' : Annotated w, outs[j]? = some o' ∧ o'.instr.Syncs ctx t) ∨
        (j = outs.length ∧ t < ctx.nbGlobals)) →
      (∀ (m : Nat) (om : Annotated w), k < m → m < j → outs[m]? = some om → t ∉ om.instr.oargs) →
      ∃ b : ArgBits, o.bits = some b ∧ b.sync.getLsbD n = true

section Marks
variable {i n : Nat} {ts : List Temp} {L : LiveState}

theorem getLsbD_mark {v : Nat} (x : BitVec v) (c : Bool) : (if c then x ||| BitVec.twoPow v i else x).getLsbD m =
      (x.getLsbD m || (c && decide (m = i) && decide (m < v))) := by
  cases c with
  | false => simp
  | true =>
    by_cases hm : m = i
    · subst hm; simp [Bool.and_comm]
    · simp [hm, Ne.symm hm]

/-- An argument at a position from `i` on is the first one or one of the rest. -/
theorem exists_arg_cons {P : Nat → Temp → Prop} : (∃ p t, (u :: ts)[p]? = some t ∧ m = i + p ∧ P p t) ↔
      (m = i ∧ P 0 u) ∨ ∃ p t, ts[p]? = some t ∧ m = i + 1 + p ∧ P (p + 1) t := by
  constructor
  · rintro ⟨p, t, hp, rfl, h⟩
    cases p with
    | zero =>
      cases hp
      exact .inl ⟨rfl, h⟩
    | succ p => exact .inr ⟨p, t, hp, by omega, h⟩
  · rintro (⟨rfl, h⟩ | ⟨p, t, hp, rfl, h⟩)
    · exact ⟨0, u, rfl, rfl, h⟩
    · exact ⟨p + 1, t, hp, by omega, h⟩

theorem getLsbD_markIns : (markIns i ts L b).2.dead.getLsbD m = true ↔
    b.dead.getLsbD m = true ∨ ∃ p t, ts[p]? = some t ∧ m = i + p ∧ m < 16 ∧ L.dead t = true ∧ t ∉ ts.take p := by
  induction ts generalizing i L b with
  | nil => simp [markIns]
  | cons u us ih =>
    rw [markIns, ih, getLsbD_mark, exists_arg_cons, Bool.or_eq_true, or_assoc]
    refine or_congr Iff.rfl (or_congr ?_ (exists₂_congr fun p t => ?_))
    · simp [and_comm, and_left_comm]
    · simp [and_assoc, and_left_comm]

theorem markIns_sync : (markIns i ts L b).2.sync = b.sync := by
  induction ts generalizing i L b with
  | nil => rfl
  | cons u us ih => rw [markIns, ih]

theorem ne_of_nodup_cons {p : Nat} (hnd : (u :: ts).Nodup) (hp : ts[p]? = some t) : t ≠ u :=
  fun he => (nodup_cons.1 hnd).1 (he ▸ mem_of_getElem? hp)

theorem getLsbD_markOuts (hnd : ts.Nodup) : ((markOuts i ts L b).2.dead.getLsbD m = true ↔
      b.dead.getLsbD m = true ∨ ∃ p t, ts[p]? = some t ∧ m = i + p ∧ m < 16 ∧ L.dead t = true) ∧
    ((markOuts i ts L b).2.sync.getLsbD m = true ↔
      b.sync.getLsbD m = true ∨ ∃ p t, ts[p]? = some t ∧ m = i + p ∧ m < 8 ∧ L.mem t = true) := by
  induction ts generalizing i L b with
  | nil => simp [markOuts]
  | cons u us ih =>
    rw [markOuts, (ih hnd.of_cons).1, (ih hnd.of_cons).2]
    constructor
    all_goals
      rw [getLsbD_mark, exists_arg_cons, Bool.or_eq_true, or_assoc]
      refine or_congr Iff.rfl (or_congr ?_ (exists₂_congr fun p t => and_congr_right fun hp => ?_))
      · simp [and_comm, and_left_comm]
      · simp [ne_of_nodup_cons hnd hp]

end Marks

section Points
variable {k : Nat} {o : Annotated w}

section
variable (h : Walked ctx ops outs Ls)
include h

section
variable (ho : outs[k]? = some o)
include ho

theorem Walked.at : ∃ i, ops[k]? = some i ∧ Rewrite ctx i (Ls (k + 1)) o (Ls k) := by
  have hk : k < ops.length := by
    rw [← h.length]
    exact (List.getElem?_eq_some_iff.1 ho).1
  obtain ⟨o', ho', hr⟩ := h.rewrite k _ (getElem?_eq_getElem hk)
  rw [ho] at ho'
  cases ho'
  exact ⟨_, getElem?_eq_getElem hk, hr⟩

theorem Walked.live : Ls k = (keepOp ctx o.instr (Ls (k + 1))).1 := by
  obtain ⟨i, -, hr⟩ := h.at ho
  exact hr.live

/-- The bits of an instruction that has any are those of the flags around it. -/
theorem Walked.bits (hb : o.bits = some b) :
    b = (keepOp ctx o.instr (Ls (k + 1))).2 ∨ (o.instr.oargs = [] ∧ o.instr.iargs = []) := by
  obtain ⟨i, -, hr⟩ := h.at ho
  generalize Ls k = L at hr
  cases hr with
  | keep hk =>
    rcases hk with ⟨hn, -⟩ | hs
    · rw [hn] at hb
      cases hb
    · rw [hs] at hb
      exact .inl (Option.some.inj hb).symm
  | remove hd hu => cases hb
  | narrow hn => exact .inl (Option.some.inj hb).symm
  | @pad n b' => exact .inr (by cases n <;> exact ⟨rfl, rfl⟩)

theorem Walked.marked (hu : o.instr.unmarked = false) (hne : o.instr.oargs ≠ []) :
    o.bits = some (keepOp ctx o.instr (Ls (k + 1))).2 := by
  obtain ⟨i, -, hr⟩ := h.at ho
  generalize Ls k = L at hr
  cases hr with
  | keep hk =>
    rcases hk with ⟨-, hn⟩ | hs
    · rw [hn] at hu
      cases hu
    · exact hs
  | remove hd hu' | pad => exact absurd tcgSetNop_oargs hne
  | narrow hn => rfl

end

/-- A temp that is dead at a point is not read from there on, before something ends it. -/
theorem Walked.ends_of_dead {o' : Annotated w} (hd : (Ls k).dead t = true) (hkj : k ≤ j) (hj : outs[j]? = some o')
    (hread : t ∈ o'.instr.iargs) :
    ∃ (m : Nat) (om : Annotated w), k ≤ m ∧ m < j ∧ outs[m]? = some om ∧ om.instr.Ends ctx t := by
  induction hn : j - k generalizing k with
  | zero =>
    have hk : k = j := by omega
    subst hk
    rw [h.live hj, keepOp_dead] at hd
    simp [hread] at hd
  | succ n ih =>
    have hk : k < outs.length := by
      have := (List.getElem?_eq_some_iff.1 hj).1
      omega
    have hok := getElem?_eq_getElem hk
    by_cases he : (outs[k]).instr.Ends ctx t
    · exact ⟨k, _, le_rfl, by omega, hok, he⟩
    have hd' : (Ls (k + 1)).dead t = true := by
      simp only [Instr.Ends, not_or, not_and] at he
      rw [h.live hok, keepOp_dead] at hd
      simp only [Bool.and_eq_true, Bool.or_eq_true, decide_eq_true_eq] at hd
      rcases hd.2 with ((hb | hg) | ho) | hd
      · exact absurd hb he.2.1
      · exact absurd hg.2 (he.2.2 hg.1)
      · exact absurd ho he.1
      · exact hd
    obtain ⟨m, om, hm, hlt, hom, hend⟩ := ih hd' (by omega) (by omega)
    exact ⟨m, om, by omega, hlt, hom, hend⟩

/-- A temp that must be in memory later, and is not assigned before, must be in memory. -/
theorem Walked.mem_of_syncs (hkj : k ≤ j)
    (hsync : (∃ o' : Annotated w, outs[j]? = some o' ∧ o'.instr.Syncs ctx t) ∨ (j = outs.length ∧ t < ctx.nbGlobals))
    (hno : ∀ (m : Nat) (om : Annotated w), k ≤ m → m < j → outs[m]? = some om →
      t ∉ om.instr.oargs) : (Ls k).mem t = true := by
  induction hn : j - k generalizing k with
  | zero =>
    have hk : k = j := by omega
    subst hk
    rcases hsync with ⟨o', ho', hs⟩ | ⟨hlen, hg⟩
    · rw [h.live ho', keepOp_mem]
      rcases hs with ⟨hb, hkept⟩ | ⟨hr, hg⟩
      · simp [hb, hkept]
      · split
        · exact Context.kept_of_global hg
        · simp [hr, hg]
    · rw [hlen, h.length, h.last]
      simpa [LiveState.funcEnd] using hg
  | succ n ih =>
    have hk : k < outs.length := by
      rcases hsync with ⟨o', ho', -⟩ | ⟨hlen, -⟩
      · have := (List.getElem?_eq_some_iff.1 ho').1
        omega
      · omega
    have hok := getElem?_eq_getElem hk
    have hmem := ih (k := k + 1) (by omega) (fun m om hm => hno m om (by omega)) (by omega)
    have hkept : ctx.kept t = true := by
      rcases hsync with ⟨o', -, ⟨-, hkept⟩ | ⟨-, hg⟩⟩ | ⟨-, hg⟩
      · exact hkept
      all_goals exact Context.kept_of_global hg
    rw [h.live hok, keepOp_mem]
    split
    · exact hkept
    · simp [hmem, hno k _ le_rfl (by omega) hok]

end

/-- The outputs of the instruction that replaces another are outputs of it. -/
theorem Rewrite.oargs {i : Instr w} {L L' : LiveState} (h : Rewrite ctx i L o L') : o.instr.oargs.Sublist i.oargs := by
  cases h with
  | keep hb => exact refl _
  | remove hd hu | pad => rw [tcgSetNop_oargs]; exact nil_sublist _
  | narrow hn =>
    cases hn with
    | addsub2 | mulLow => exact cons_cons _ (nil_sublist _)
    | mulHigh => exact cons _ (refl _)

structure DistinctOuts (ops : List (Instr w)) : Prop where
  nodup : ∀ i ∈ ops, i.oargs.Nodup
  few : ∀ i ∈ ops, i.oargs.length ≤ 2

section
variable (h : Walked ctx ops outs Ls) (hd : DistinctOuts ops)
include h hd

theorem Walked.nodup (ho : outs[k]? = some o) : o.instr.oargs.Nodup ∧ o.instr.oargs.length ≤ 2 := by
  obtain ⟨i, hi, hr⟩ := h.at ho
  have hmem := mem_of_getElem? hi
  exact ⟨hr.oargs.nodup (hd.nodup i hmem), hr.oargs.length_le.trans (hd.few i hmem)⟩

theorem Walked.deadBits : DeadBits ctx outs := by
  intro k o b n t ho hb hbit harg j o' hkj hj hread
  rcases h.bits ho hb with rfl | ⟨he, he'⟩
  · rw [keepOp] at hbit
    rcases getLsbD_markIns.1 hbit with hbit | ⟨p, t', hp, rfl, -, hdead, -⟩
    · -- an output: it is dead after the instruction
      rcases (getLsbD_markOuts (h.nodup hd ho).1).1.1 hbit with hbit | ⟨p, t', hp, rfl, -, hdead⟩
      · simp at hbit
      have hlt := (List.getElem?_eq_some_iff.1 hp).1
      rw [zero_add, getElem?_append_left hlt, hp] at harg
      cases harg
      obtain ⟨m, om, hm, hmj, hom, hend⟩ := h.ends_of_dead hdead hkj hj hread
      exact ⟨m, om, by rw [zero_add, if_pos hlt]; exact hm, hmj, hom, hend⟩
    -- an input: the instruction itself may end it
    rw [getElem?_append_right (by omega), Nat.add_sub_cancel_left, hp] at harg
    cases harg
    by_cases hend : o.instr.Ends ctx t
    · exact ⟨k, o, by simp, hkj, ho, hend⟩
    rw [between_dead, markOuts_dead] at hdead
    simp only [Instr.Ends, not_or, not_and] at hend
    simp only [Bool.or_eq_true, Bool.and_eq_true, decide_eq_true_eq] at hdead
    rcases hdead with (hb | hg) | ho' | hdead
    · exact absurd hb hend.2.1
    · exact absurd hg.2 (hend.2.2 hg.1)
    · exact absurd ho' hend.1
    · obtain ⟨m, om, hm, hmj, hom, hend⟩ := h.ends_of_dead hdead hkj hj hread
      exact ⟨m, om, by rw [if_neg (by omega)]; omega, hmj, hom, hend⟩
  · simp [he, he'] at harg

theorem Walked.syncBits : SyncBits ctx outs := by
  intro k o n t ho hu harg j hkj hsync hno
  have hlt := (List.getElem?_eq_some_iff.1 harg).1
  have hne : o.instr.oargs ≠ [] := by
    intro he
    rw [he] at hlt
    exact absurd hlt (Nat.not_lt_zero _)
  refine ⟨_, h.marked ho hu hne, ?_⟩
  have hmem := h.mem_of_syncs (k := k + 1) hkj hsync fun m om hm => hno m om hm
  rw [keepOp, markIns_sync]
  obtain ⟨hnd, hfew⟩ := h.nodup hd ho
  exact (getLsbD_markOuts hnd).2.2 (.inr ⟨n, t, harg, by omega, by omega, hmem⟩)

end

end Points

section Pass
variable {W : World σ w}

theorem walked_of_analysis {F : Features}
    (h : tcgLivenessAnalysis F ctx ops = .ok outs) : ∃ Ls, Walked ctx ops outs Ls := by
  unfold tcgLivenessAnalysis at h
  cases hr : livenessFrom F ctx ops with
  | error e => rw [hr] at h; cases h
  | ok r =>
    rw [hr] at h
    cases h
    obtain ⟨Ls, hlast, hlen, hall⟩ := (livenessFrom_annotates hr).states
    exact ⟨Ls, hlen, hlast, hall⟩

/-- What the two runs have in common at one point: where they are, the world, what it has
noticed, and the temps that must be in memory there. -/
structure SameMeaning (ctx : Context) (outs : List (Annotated w)) (s p : Run σ w) : Prop where
  pc : s.pc = p.pc
  running : s.running = p.running
  world : s.world = p.world
  trace : s.trace.filter Event.observable = p.trace.filter Event.observable
  atReader : ∀ i, (stream outs)[s.pc]? = some i → i.readsGlobals = true → ∀ t, t < ctx.nbGlobals → s.temps t = p.temps t
  atBlockEnd : ∀ i, (stream outs)[s.pc]? = some i → i.bbEnd = true → ∀ t, ctx.kept t = true → s.temps t = p.temps t
  atEnd : s.pc = outs.length → ∀ t, t < ctx.nbGlobals → s.temps t = p.temps t

theorem Walked.sameMeaning {s p : Run σ w} (h : Walked ctx ops outs Ls)
    (ha : Agree (Ls s.pc).Needs s p) : SameMeaning ctx outs s p := by
  have hinstr : ∀ i, (stream outs)[s.pc]? = some i → ∃ o, outs[s.pc]? = some o ∧ o.instr = i := by
    intro i hi
    simpa [stream, getElem?_map] using hi
  refine ⟨ha.pc, ha.running, ha.world, ha.trace, ?_, ?_, ?_⟩
  · intro i hi hr t ht
    obtain ⟨o, ho, rfl⟩ := hinstr i hi
    apply ha.temps
    rw [h.live ho]
    exact keepOp_needs_global hr ht
  · intro i hi hb t ht
    obtain ⟨o, ho, rfl⟩ := hinstr i hi
    apply ha.temps
    rw [h.live ho]
    exact keepOp_needs_kept hb ht
  · intro hpc t ht
    apply ha.temps
    rw [hpc, h.length, h.last]
    exact .inr (by simpa [LiveState.funcEnd] using ht)

/-- **The liveness pass preserves the meaning of every stream, and its bits are right.** The
pass does not fail, every run of the stream it leaves follows the run of the stream it was
given, and the dead and sync bits keep their promises. -/
theorem liveness_preserves_meaning (F : Features) (ctx : Context) (W : World σ w)
    (hW : W.Suppressible) (ops : List (Instr w)) (hpad : Padded ops) (hd : DistinctOuts ops) :
    ∃ outs, tcgLivenessAnalysis F ctx ops = .ok outs ∧ (∀ n s s', run ctx W ops n s = some s' →
        ∃ p', run ctx W (stream outs) n s = some p' ∧ SameMeaning ctx outs s' p') ∧
      DeadBits ctx outs ∧ SyncBits ctx outs := by
  obtain ⟨r, hr⟩ : ∃ r, livenessFrom F ctx ops = .ok r := livenessFrom_ok F hpad
  have hpass : tcgLivenessAnalysis F ctx ops = .ok r.2 := by rw [tcgLivenessAnalysis, hr]; rfl
  obtain ⟨Ls, h⟩ := walked_of_analysis hpass
  refine ⟨r.2, hpass, ?_, h.deadBits hd, h.syncBits hd⟩
  intro n s s' hs
  obtain ⟨p', hp', ha⟩ := h.run_agree hW hs
  exact ⟨p', hp', h.sameMeaning ha⟩

end Pass

def smallContext : Context where
  nbGlobals := 1
  nbTemps := 4
  tempLocal := fun _ => false
  type := fun _ => .i32
  globals_le := by decide
  local_lt := by simp

def quietWorld : World Unit 64 where
  ld := fun _ _ _ => 0
  st := fun _ _ _ _ => ()
  guest := fun _ _ => ⟨(), false, 0⟩
  call := fun _ _ => ⟨(), false, fun _ => 0, fun _ => none⟩
  linked := fun _ _ => false

/-- A sum of which only the low word is used. -/
def wideAdd : List (Instr 64) :=
  [.addsub2 .add2 .i32 1 2 0 0 0 0, .nop, .mov .i32 0 1, .exitTb 0]

theorem liveness_preserves_wideAdd : ∃ outs, tcgLivenessAnalysis i386Features smallContext wideAdd = .ok outs ∧
      (∀ n s s', run smallContext quietWorld wideAdd n s = some s' →
        ∃ p', run smallContext quietWorld (stream outs) n s = some p' ∧ SameMeaning smallContext outs s' p') ∧
      DeadBits smallContext outs ∧ SyncBits smallContext outs := by
  refine liveness_preserves_meaning i386Features smallContext quietWorld ?_ wideAdd ?_ ?_
  · exact fun _ _ _ => ⟨rfl, rfl, fun _ => rfl⟩
  · intro k i hk hp
    match k with
    | 0 => rfl
    | 1 | 2 | 3 => cases hk; cases hp
    | k + 4 => simp [wideAdd] at hk
  · exact ⟨by decide, by decide⟩

/-- A load whose result nobody uses. -/
def deadLoad : List (Instr 64) := [.ld .i32 ⟨.mo32, false⟩ 1 0 8, .exitTb 0]

/-- A run at the start of a stream, with every global equal to `v`. -/
def startRun (v : BitVec 64) : Run Unit 64 where
  pc := 0
  temps := fun t => if t < 1 then some v else none
  world := ()
  trace := []
  running := true

/-- The host load of `deadLoad` is a memory access of the stream that the pass removes. -/
theorem liveness_drops_dead_load : ∃ outs, tcgLivenessAnalysis i386Features smallContext deadLoad = .ok outs ∧
      (run smallContext quietWorld deadLoad 2 (startRun 0)).map (·.trace) = some [.exit 0, .load ⟨.mo32, false⟩ 8] ∧
      (run smallContext quietWorld (stream outs) 2 (startRun 0)).map (·.trace) = some [.exit 0] :=
  ⟨[⟨.nopn 3, none⟩, ⟨.exitTb 0, some ⟨0, 0⟩⟩], by rfl, by rfl, by rfl⟩

end GemDroid.Tcg
