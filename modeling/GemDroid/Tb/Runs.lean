import GemDroid.Tb.Ranges

/-! Runs of the translation block operations.

`Reach G s` says that a run from start-up reaches `s` by steps that `G` allows.
Callers pass valid blocks, and chain only slots that have a native jump. Under that
promise every operation but the range invalidations keeps the invariant, so the
jump rings are always right. The range invalidations walk into a null link when
they hit a block twice through its two links on one page; runs without such a step
keep all lists right. -/
namespace GemDroid.Tb
open Lib.LinkPath Option
attribute [local instance] neZero_two

variable {cfg : Config} {s : State}

inductive Op (cfg : Config)
  | genCode (pc csBase flags cflags : Nat) (mmu : Mmu) (gen : Option (Translated cfg pc))
  | addJump (tb : TbId) (n : Fin 2) (tbNext : TbId)
  | physInvalidate (tb : TbId)
  | invalidatePhysPageRange (start stop : Nat) (isCpuWriteAccess : Bool)
  | invalidatePhysRange (start stop : Nat) (isCpuWriteAccess : Bool)
  | flush

section Steps
variable (cfg : Config)

def step (s : State) : Op cfg → Except Fault State
  | .genCode pc csBase flags cflags mmu gen => tbGenCode cfg s pc csBase flags cflags mmu gen
  | .addJump tb n tbNext => .ok (tbAddJump s tb n tbNext)
  | .physInvalidate tb => tbPhysInvalidate cfg s tb none
  | .invalidatePhysPageRange start stop w => tbInvalidatePhysPageRange cfg s start stop w
  | .invalidatePhysRange start stop w => tbInvalidatePhysRange cfg s start stop w
  | .flush => tbFlush cfg s

/-- What callers promise. -/
def Op.Legal (s : State) : Op cfg → Prop
  | .addJump tb n tbNext => s.valid tb = true ∧ s.valid tbNext = true ∧ ((s.tbs tb).tbNextOffset n).isSome
  | .physInvalidate tb => s.valid tb = true
  | _ => True

/-- A range invalidation does not hit a block through both its links on one page. -/
def Op.Separate (s : State) : Op cfg → Prop
  | .invalidatePhysPageRange start stop _ => ∀ t, s.valid t = true →
      (s.tbs t).pageAddr0 >>> cfg.pageBits = start >>> cfg.pageBits → ¬ HitsTwice cfg (s.tbs t).toInfo start stop
  | .invalidatePhysRange start stop _ => ∀ t, s.valid t = true → ¬ HitsTwice cfg (s.tbs t).toInfo start stop
  | _ => True

def Op.NoRange : Op cfg → Prop
  | .invalidatePhysPageRange .. => False
  | .invalidatePhysRange .. => False
  | _ => True

/-- Start-up: no block, empty heads, no page descriptor. -/
structure Initial (s : State) : Prop where
  nbTbs : s.nbTbs = 0
  hash : ∀ h, s.tbPhysHash h = none
  page : ∀ p, (s.pages p).firstTb = none
  ptr : s.codeGenPtr = 0
  valid : ∀ t, s.valid t = false

inductive Reach (G : State → Op cfg → Prop) : State → Prop
  | init {s : State} (h : Initial s) : Reach G s
  | next {s s' : State} {op : Op cfg} (h : Reach G s) (hop : G s op) (hs : step cfg s op = .ok s') : Reach G s'

end Steps

section Invariant

theorem Inv.step (I : Inv cfg s) {op : Op cfg} (hlegal : op.Legal cfg s) (hsep : op.Separate cfg s) :
    ∃ s', step cfg s op = .ok s' ∧ Inv cfg s' := by
  cases op with
  | genCode pc csBase flags cflags mmu gen => exact tbGenCode_spec I pc csBase flags cflags mmu gen
  | addJump tb n T =>
    refine ⟨_, rfl, ?_⟩
    obtain ⟨htb, hT, hslot⟩ := hlegal
    obtain ⟨on, R⟩ := I.rings
    have hrings := rings_tbAddJump R htb hT hslot
    have hstep : JmpStep s (tbAddJump s tb n T) := by
      unfold tbAddJump
      cases readJmp s (.next tb n) with
      | some k => exact JmpStep.refl s
      | none => exact ((jmpStep_tbSetJmpTarget _ _ _ _).trans (jmpStep_writeJmp _ _ _)).trans (jmpStep_writeJmp _ _ _)
    refine ⟨hstep.frame ▸ I.wf, ?_, ?_, fun t ht hsame => ?_, hrings⟩
    · unfold HashLists
      rw [hstep.frame, hstep.hash]
      exact I.hash
    · unfold PageLists
      rw [hstep.frame, hstep.page]
      exact I.page
    · rw [valid_of_frame hstep.frame] at ht
      rw [info_of_frame hstep.frame] at hsame
      rw [hstep.page]
      exact I.adjacent t ht hsame
  | physInvalidate tb =>
    obtain ⟨s', hok, I', -, -⟩ := tbPhysInvalidate_spec I hlegal
    exact ⟨s', hok, I'⟩
  | invalidatePhysPageRange start stop w =>
    obtain ⟨s', hok, I', -, -⟩ := tbInvalidatePhysPageRange_spec I start stop w
      fun t ht hidx => hsep t ht (Option.some.inj hidx)
    exact ⟨s', hok, I'⟩
  | invalidatePhysRange start stop w =>
    obtain ⟨s', hok, I', -, -⟩ := tbInvalidatePhysRange_spec I start stop w hsep
    exact ⟨s', hok, I'⟩
  | flush =>
    obtain ⟨s', hok, I', -⟩ := tbFlush_spec I
    exact ⟨s', hok, I'⟩

theorem Reach.inv {G : State → Op cfg → Prop}
    (hG : ∀ s op, G s op → op.Legal cfg s ∧ op.Separate cfg s) (h : Reach cfg G s) : Inv cfg s := by
  induction h with
  | init h =>
    refine inv_of_empty h.valid h.hash h.page ?_ ?_
    · rw [h.ptr]
      exact Nat.dvd_zero _
    · rw [h.ptr]
      exact Nat.zero_le _
  | next h hop hs ih =>
    obtain ⟨s₁, hok, I⟩ := ih.step (hG _ _ hop).1 (hG _ _ hop).2
    rw [hs] at hok
    cases hok
    exact I

end Invariant

section Fixture

theorem six_le_ten : 6 ≤ 10 := by decide

def smallConfig : Config where
  pageBits := 10
  codeGenBufferSize := 65536
  codeGenBufferMaxSize := 32768
  codeGenMaxBlocks := 8
  pageBits_le := six_le_ten
  bufferMaxSize_pos := by decide
  bufferMaxSize_le := by decide
  maxBlocks_pos := by decide
  bufferSize_aligned := by decide

/-- Sixteen bytes of guest code with two jumps. -/
def smallBlock (pc : Nat) (h : pc % 1024 + 16 < 2048) : Translated smallConfig pc where
  size := 16
  codeGenSize := 64
  icount := 4
  tbNextOffset n := some (if n = 0 then 24 else 48)
  tbNext _ := 0
  size_pos := by decide
  size_lt := h
  codeGenSize_pos := by decide
  codeGenSize_le := by decide
  offset_lt n off hoff := by
    have : off = if n = 0 then 24 else 48 := (Option.some.inj hoff).symm
    split at this <;> omega

def freshBlock : TranslationBlock where
  pc := 0
  size := 0
  tcPtr := 0
  pageAddr0 := 0
  pageAddr1 := none
  tbNextOffset _ := none
  csBase := 0
  flags := 0
  cflags := 0
  physHashNext := none
  pageNext _ := none
  jmpNext _ := none
  jmpFirst := none
  tbNext _ := 0
  icount := 0

def freshState : State where
  tbs _ := freshBlock
  nbTbs := 0
  tbPhysHash _ := none
  l1Map _ := false
  pages _ := ⟨none, 0, none⟩
  tbJmpCache _ _ := none
  codeGenPtr := 0
  tbFlushCount := 0
  tbPhysInvalidateCount := 0
  tbInvalidatedFlag := false
  valid _ := false

theorem freshState_initial : Initial freshState := ⟨rfl, fun _ => rfl, fun _ => rfl, rfl, fun _ => rfl⟩

def smallGenCode (pc : Nat) (h : pc % 1024 + 16 < 2048) (mmu : Mmu) : Op smallConfig :=
  .genCode pc 0 0 0 mmu (some (smallBlock pc h))

end Fixture

section Chaining
variable {t u : TbId} {f : Frame}

theorem Frame.Wf.tcPtr_inj (hwf : f.Wf cfg) (ht : f.valid t = true) (hu : f.valid u = true)
    (h : (f.info t).tcPtr = (f.info u).tcPtr) : t = u := by
  by_contra hne
  rcases Nat.lt_or_gt_of_ne hne with hlt | hlt
  · have := (hwf.ordered t u ht hu hlt).1
    omega
  · have := (hwf.ordered u t hu ht hlt).1
    omega

theorem Frame.Wf.stub_ne (hwf : f.Wf cfg) {n : Fin 2} (ht : f.valid t = true)
    (hu : f.valid u = true) (hn : ((f.info t).tbNextOffset n).isSome) : stub (f.info t) n ≠ (f.info u).tcPtr := by
  obtain ⟨off, hoff⟩ := isSome_iff_exists.mp hn
  have hpos := hwf.stub_pos t n off ht hoff
  unfold stub
  rw [hoff, getD_some]
  intro h
  rcases Nat.lt_trichotomy t u with hlt | rfl | hlt
  · have := (hwf.ordered t u ht hu hlt).2 n off hoff
    omega
  · omega
  · have := (hwf.ordered u t hu ht hlt).1
    omega

/-- A slot of a valid block whose native jump goes to the entry of `T`. -/
def JumpsTo (s : State) (t : TbId) (n : Fin 2) (T : TbId) : Prop :=
  s.valid t = true ∧ ((s.tbs t).tbNextOffset n).isSome ∧ (s.tbs t).tbNext n = (s.tbs T).tcPtr

theorem Rings.on_iff {on : JmpLink → Option TbId} (R : Rings s on) (hwf : (frame s).Wf cfg) {T : TbId}
    (hT : s.valid T = true) (t : TbId) (n : Fin 2) : on (.next t n) = some T ↔ JumpsTo s t n T := by
  constructor
  · intro h
    obtain ⟨ht, -, hoff, htarget⟩ := R.slot t n T h
    exact ⟨ht, hoff, htarget⟩
  · rintro ⟨ht, hoff, htarget⟩
    have htarget' : jmpTarget s t n = (info s T).tcPtr := htarget
    cases hon : on (.next t n) with
    | none =>
      rw [(R.free t n ht hon).2 hoff] at htarget'
      exact absurd htarget' (hwf.stub_ne ht hT hoff)
    | some T' =>
      obtain ⟨-, hT', -, htarget''⟩ := R.slot t n T' hon
      rw [hwf.tcPtr_inj hT' hT (htarget''.symm.trans htarget')]

/-- In every state that linking, chaining, invalidating and flushing reach: the ring
of a valid block passes, once each, the slots that jump to it; a slot has a null
link exactly when it jumps to no valid block, and then it jumps to its stub; and
after a block is invalidated no slot of a valid block jumps to it. -/
theorem jump_rings_of_reachable (h : Reach cfg (fun s op => op.Legal cfg s ∧ op.NoRange cfg) s) :
    (∀ T, s.valid T = true → ∃ l, Path (readJmp s) id (.first T) l (some (.first T)) ∧ l.Nodup ∧
      ∀ c, c ∈ l ↔ ∃ t n, c = .next t n ∧ JumpsTo s t n T) ∧
    (∀ t n, s.valid t = true → ((s.tbs t).jmpNext n = none ↔ ∀ T, s.valid T = true → ¬ JumpsTo s t n T) ∧
      ((s.tbs t).jmpNext n = none → ∀ off, (s.tbs t).tbNextOffset n = some off →
        (s.tbs t).tbNext n = (s.tbs t).tcPtr + off)) ∧
    (∀ op : Op cfg, op.Legal cfg s → op.NoRange cfg → ∃ s', step cfg s op = .ok s') ∧
    ∀ tb, s.valid tb = true → ∃ s', tbPhysInvalidate cfg s tb none = .ok s' ∧ ∀ t n, ¬ JumpsTo s' t n tb := by
  have hG : ∀ (s : State) (op : Op cfg), op.Legal cfg s ∧ op.NoRange cfg → op.Legal cfg s ∧ op.Separate cfg s := by
    intro s op hop
    refine ⟨hop.1, ?_⟩
    cases op with
    | invalidatePhysPageRange => exact hop.2.elim
    | invalidatePhysRange => exact hop.2.elim
    | _ => trivial
  have I := h.inv hG
  obtain ⟨on, R⟩ := I.rings
  refine ⟨fun T hT => ?_, fun t n ht => ⟨⟨fun hnull T hT hj => ?_, fun hno => ?_⟩, fun hnull off hoff => ?_⟩,
    fun op hlegal hrange => ?_, fun tb htb => ?_⟩
  · obtain ⟨l, hp, hl⟩ := R.lists.path T hT
    refine ⟨l, hp, R.lists.nodup hp hl, fun c => ⟨fun hc => ?_, ?_⟩⟩
    · obtain ⟨t, n, rfl⟩ := JmpLists.exists_slot R.lists ((hl c).mp hc)
      exact ⟨t, n, rfl, (R.on_iff I.wf hT t n).mp ((hl _).mp hc)⟩
    · rintro ⟨t, n, rfl, hj⟩
      exact (hl _).mpr ((R.on_iff I.wf hT t n).mpr hj)
  · have hon := (R.on_iff I.wf hT t n).mpr hj
    rw [(R.off_iff ht n).mpr hnull] at hon
    cases hon
  · refine (R.off_iff ht n).mp ?_
    by_contra hon
    obtain ⟨T, hT⟩ := Option.ne_none_iff_exists'.mp hon
    have hvT := (R.slot t n T hT).2.1
    exact hno T hvT ((R.on_iff I.wf hvT t n).mp hT)
  · have hstub := (R.free t n ht ((R.off_iff ht n).mpr hnull)).2 (show ((info s t).tbNextOffset n).isSome by
      simp [info, hoff])
    simpa [stub, info, hoff, jmpTarget] using hstub
  · obtain ⟨s', hok, -⟩ := I.step (hG s op ⟨hlegal, hrange⟩).1 (hG s op ⟨hlegal, hrange⟩).2
    exact ⟨s', hok⟩
  · obtain ⟨s', hok, I', hframe, -⟩ := tbPhysInvalidate_spec I htb
    refine ⟨s', hok, ?_⟩
    rintro t n ⟨ht, hoff, htarget⟩
    obtain ⟨on', R'⟩ := I'.rings
    have hinfo : info s' = info s := info_of_frame hframe
    have hvalid := fun u (hu : s'.valid u = true) => valid_of_invalidated hframe hu
    have htarget' : jmpTarget s' t n = (info s' tb).tcPtr := htarget
    rw [hinfo] at htarget'
    -- The slot jumps to another valid block or to its stub, and neither is the entry of the block.
    cases hon : on' (.next t n) with
    | none =>
      have hstub := (R'.free t n ht hon).2 hoff
      rw [hstub, hinfo] at htarget'
      have hoff' : ((info s t).tbNextOffset n).isSome := by rw [← hinfo]; exact hoff
      exact I.wf.stub_ne (hvalid t ht).2 htb hoff' htarget'
    | some T =>
      obtain ⟨-, hT, -, hslot⟩ := R'.slot t n T hon
      rw [hslot, hinfo] at htarget'
      exact (hvalid T hT).1 (I.wf.tcPtr_inj (hvalid T hT).2 htb htarget')

/-- One block, both its slots chained to itself. -/
theorem jump_rings_of_loop : ∃ s, JumpsTo s 0 0 0 ∧ JumpsTo s 0 1 0 ∧
    ∃ l, Path (readJmp s) id (.first 0) l (some (.first 0)) ∧ l.Nodup ∧
      ∀ c, c ∈ l ↔ ∃ t n, c = .next t n ∧ JumpsTo s t n 0 := by
  obtain ⟨s, h, hlegal₀, hlegal₁, hv, hjumps₀, hjumps₁⟩ :
      ∃ s, step smallConfig freshState (smallGenCode 0 (by decide) some) = .ok s ∧
        (Op.addJump 0 0 0).Legal smallConfig s ∧ (Op.addJump 0 1 0).Legal smallConfig (tbAddJump s 0 0 0) ∧
        (tbAddJump (tbAddJump s 0 0 0) 0 1 0).valid 0 = true ∧
        JumpsTo (tbAddJump (tbAddJump s 0 0 0) 0 1 0) 0 0 0 ∧ JumpsTo (tbAddJump (tbAddJump s 0 0 0) 0 1 0) 0 1 0 :=
    ⟨_, rfl, ⟨rfl, rfl, rfl⟩, ⟨rfl, rfl, rfl⟩, rfl, ⟨rfl, rfl, rfl⟩, ⟨rfl, rfl, rfl⟩⟩
  have hreach : Reach smallConfig (fun s op => op.Legal smallConfig s ∧ op.NoRange smallConfig) s :=
    @Reach.next _ _ freshState _ (smallGenCode 0 (by decide) some) (.init freshState_initial) ⟨trivial, trivial⟩ h
  have hloop := @Reach.next _ _ _ _ (.addJump 0 1 0)
    (@Reach.next _ _ _ _ (.addJump 0 0 0) hreach ⟨hlegal₀, trivial⟩ rfl) ⟨hlegal₁, trivial⟩ rfl
  exact ⟨_, hjumps₀, hjumps₁, (jump_rings_of_reachable hloop).1 0 hv⟩

end Chaining

section Covering

theorem Info.Wf.pageIndex_iff {i : Info} (hwf : i.Wf cfg) (n : Fin 2) (p : Nat) :
    pageIndex cfg i n = some p ↔ ∃ x, i.Bytes cfg n x ∧ x >>> cfg.pageBits = p := by
  have hpos := cfg.pageSize_pos
  constructor
  · intro h
    obtain ⟨x, hx⟩ : ∃ x, i.Bytes cfg n x := by
      by_cases hn : n = 0
      · have hsize := hwf.size_pos
        have hmod := Nat.mod_lt i.pc hpos
        refine ⟨i.pageAddr0 + i.pc % cfg.pageSize, ?_⟩
        unfold Info.Bytes
        rw [if_pos hn]
        omega
      obtain ⟨a, ha, -⟩ := map_eq_some_iff.mp h
      have ha' : i.pageAddr1 = some a := (if_neg hn).symm.trans ha
      have hspan := hwf.spans.mp (by simp [ha'])
      refine ⟨a, ?_⟩
      unfold Info.Bytes
      rw [if_neg hn]
      exact ⟨a, ha', by omega, by omega⟩
    refine ⟨x, hx, ?_⟩
    rw [hwf.bytes_page hx] at h
    exact Option.some.inj h
  · rintro ⟨x, hx, rfl⟩
    exact hwf.bytes_page hx

/-- In every state reached by steps that hit no block twice: a hash chain passes, once
each, the valid blocks of its bucket; a page list passes, once each, the parts of
valid blocks that have bytes on the page; and invalidating a range that hits no
block twice finishes and leaves no block of a hash chain with a byte in the range. -/
theorem tb_lists_of_reachable (h : Reach cfg (fun s op => op.Legal cfg s ∧ op.Separate cfg s) s) :
    (∀ b, ∃ l, Path (readHash s) .next (.head b) l none ∧ l.Nodup ∧ ∀ t, t ∈ l ↔ s.valid t = true ∧
      tbPhysHashFunc ((s.tbs t).pageAddr0 + (s.tbs t).pc % cfg.pageSize) = b) ∧
    (∀ p, ∃ l, Path (readPage s) pageCell (.first p) l none ∧ l.Nodup ∧ ∀ t n, (t, n) ∈ l ↔ s.valid t = true ∧
      ∃ x, (s.tbs t).toInfo.Bytes cfg n x ∧ x >>> cfg.pageBits = p) ∧
    (∀ op : Op cfg, op.Legal cfg s → op.Separate cfg s → ∃ s', step cfg s op = .ok s') ∧
    ∀ start stop w, (Op.invalidatePhysRange start stop w).Separate cfg s →
      ∃ s', tbInvalidatePhysRange cfg s start stop w = .ok s' ∧
        ∀ b l, Path (readHash s') .next (.head b) l none → ∀ t ∈ l, ∀ n x, start ≤ x → x < stop →
          ¬ (s'.tbs t).toInfo.Bytes cfg n x := by
  have I := h.inv fun _ _ hop => hop
  have hchain : ∀ {s : State}, Inv cfg s → ∀ t b, hashOn cfg (frame s) t = some b ↔
      s.valid t = true ∧ tbPhysHashFunc ((s.tbs t).pageAddr0 + (s.tbs t).pc % cfg.pageSize) = b := by
    intro s I t b
    rw [hashOn, ite_none_right_eq_some, Option.some.injEq]
    rfl
  refine ⟨fun b => ?_, fun p => ?_, fun op hlegal hsep => ?_, fun start stop w hsep => ?_⟩
  · obtain ⟨l, hp, hl⟩ := I.hash.path b trivial
    exact ⟨l, hp, I.hash.nodup hp hl, fun t => (hl t).trans (hchain I t b)⟩
  · obtain ⟨l, hp, hl⟩ := I.page.path p trivial
    refine ⟨l, hp, I.page.nodup hp hl, fun t n => (hl (t, n)).trans ?_⟩
    rw [pageOn_eq_some]
    exact and_congr_right fun ht => (I.wf.info t ht).pageIndex_iff n p
  · obtain ⟨s', hok, -⟩ := I.step hlegal hsep
    exact ⟨s', hok⟩
  · obtain ⟨s', hok, I', hshrinks, hdone⟩ := tbInvalidatePhysRange_spec I start stop w hsep
    refine ⟨s', hok, fun b l hp t ht n x hx hx' hb => ?_⟩
    obtain ⟨l', hp', hl'⟩ := I'.hash.path b trivial
    obtain rfl : l = l' := path_unique hp hp' (fun _ _ => by simp) (fun _ _ => by simp)
    have hv := ((hchain I' t b).mp ((hl' t).mp ht)).1
    have hb' : (info s' t).Bytes cfg n x := hb
    rw [hshrinks.info] at hb'
    exact hdone t n x hv hx hx' hb'

/-- One block over two different physical pages: the range of the first page is invalidated. -/
theorem tb_lists_two_pages : ∃ s s', step smallConfig freshState (smallGenCode 1016 (by decide) some) = .ok s ∧
    tbInvalidatePhysRange smallConfig s 0 1024 false = .ok s' ∧
    ∀ b l, Path (readHash s') .next (.head b) l none → ∀ t ∈ l, ∀ n x, 0 ≤ x → x < 1024 →
      ¬ (s'.tbs t).toInfo.Bytes smallConfig n x := by
  obtain ⟨s, h, hone⟩ : ∃ s, step smallConfig freshState (smallGenCode 1016 (by decide) some) = .ok s ∧
    (s.tbs 0).pageAddr1 = some 1024 ∧ (s.tbs 0).pageAddr0 = 0 ∧ ∀ t, s.valid t = Function.update (fun _ => false) 0 true t :=
    ⟨_, rfl, rfl, rfl, fun _ => rfl⟩
  have hreach : Reach smallConfig (fun s op => op.Legal smallConfig s ∧ op.Separate smallConfig s) s :=
    @Reach.next _ _ freshState _ (smallGenCode 1016 (by decide) some) (.init freshState_initial) ⟨trivial, trivial⟩ h
  obtain ⟨s', hok, hdone⟩ := (tb_lists_of_reachable hreach).2.2.2 0 1024 false (by
    intro t ht htwice
    rw [hone.2.2, Function.update_apply] at ht
    split at ht
    · next he =>
      subst he
      have := htwice.1
      rw [hone.1, hone.2.1] at this
      cases this
    · cases ht)
  exact ⟨s, s', h, hok, hdone⟩

/-- One block whose two virtual pages are one physical page: the range of that page
hits it twice, and the second invalidation runs off the end of the hash chain. -/
theorem tb_lists_same_page : ∃ s, Reach smallConfig (fun s op => op.Legal smallConfig s) s ∧
    tbInvalidatePhysRange smallConfig s 1024 2048 false = .error (.walk .null) :=
  ⟨_, @Reach.next _ _ freshState _ (smallGenCode 1016 (by decide) fun _ => some 1) (.init freshState_initial)
    trivial rfl, rfl⟩

end Covering

end GemDroid.Tb
