import GemDroid.Tb.Invariant

/-! Generating and flushing blocks keeps the invariant.

A block comes into being in steps: it is taken from `tbs[]`, its code is generated
and the code pointer moves on, and `tb_link_page` puts it on its lists. Until then
it is not valid, so what the steps write into it is invisible to the invariant; a
guest fault between two steps leaves such a block behind. -/
namespace GemDroid.Tb
open Function (update_of_ne update_self update)
open Lib.LinkPath Option Info Nat

variable {s s' : State} {tb t : TbId} {cfg : Config} {pc physPc : Nat}

section Congruence
variable {f f' : Frame}

/-- What a block has to be to come behind the valid ones. -/
structure Frame.Last (cfg : Config) (f f' : Frame) (t : TbId) : Prop where
  lt : t < f'.nbTbs
  info : (f'.info t).Wf cfg
  alloc : ∀ n a, (f'.info t).pageAddr n = some a → f'.l1Map (pageGroup (a >>> cfg.pageBits)) = true
  stub_pos : ∀ n off, (f'.info t).tbNextOffset n = some off → 0 < off
  placed : (f'.info t).EndsBelow f'.codeGenPtr
  before : ∀ u, f.valid u = true → u < t ∧ (f.info u).EndsBelow (f'.info t).tcPtr

theorem Frame.Wf.grow (hwf : f.Wf cfg) (tb : TbId) (hvalid : ∀ t, f'.valid t = true →
      f.valid t = true ∧ f'.info t = f.info t ∨ t = tb ∧ f.Last cfg f' t) (hnb : f.nbTbs ≤ f'.nbTbs)
    (hl1 : ∀ g, f.l1Map g = true → f'.l1Map g = true) (hptr : f.codeGenPtr ≤ f'.codeGenPtr)
    (haligned : 16 ∣ f'.codeGenPtr) (hle : f'.codeGenPtr ≤ cfg.codeGenBufferSize) : f'.Wf cfg := by
  refine ⟨fun t ht => ?_, fun t ht => ?_, fun t n a ht ha => ?_, fun t n off ht hoff => ?_, fun t ht => ?_,
    fun t u ht hu htu => ?_, haligned, hle⟩ <;> obtain ⟨ht, hinfo⟩ | ⟨rfl, hlast⟩ := hvalid t ht
  · exact lt_of_lt_of_le (hwf.lt t ht) hnb
  · exact hlast.lt
  · exact hinfo ▸ hwf.info t ht
  · exact hlast.info
  · exact hl1 _ (hwf.alloc t n a ht (hinfo ▸ ha))
  · exact hlast.alloc n a ha
  · exact hwf.stub_pos t n off ht (hinfo ▸ hoff)
  · exact hlast.stub_pos n off hoff
  · have h := hwf.placed t ht
    rw [hinfo]
    exact ⟨lt_of_lt_of_le h.1 hptr, fun n off hoff => lt_of_lt_of_le (h.2 n off hoff) hptr⟩
  · exact hlast.placed
  · rw [hinfo]
    obtain ⟨hu, hinfo'⟩ | ⟨rfl, hlast⟩ := hvalid u hu
    · exact hinfo' ▸ hwf.ordered t u ht hu htu
    · exact (hlast.before t ht).2
  · obtain ⟨hu, -⟩ | ⟨rfl, -⟩ := hvalid u hu
    · exact absurd htu (not_lt.mpr (le_of_lt (hlast.before u hu).1))
    · exact absurd htu (lt_irrefl _)

section
variable (hvalid : f'.valid = f.valid) (hinfo : ∀ t, f.valid t = true → f'.info t = f.info t)
include hvalid hinfo

theorem hashOn_congr : hashOn cfg f' = hashOn cfg f := by
  funext t
  unfold hashOn
  rw [hvalid]
  split
  · rw [hinfo t ‹_›]
  · rfl

theorem pageOn_congr : pageOn cfg f' = pageOn cfg f := by
  funext k
  unfold pageOn
  rw [hvalid]
  split
  · rw [hinfo k.1 ‹_›]
  · rfl

end

/-- Steps that change no list and no valid block. -/
theorem Inv.congr (I : Inv cfg s) (hwf : (frame s').Wf cfg) (hvalid : s'.valid = s.valid)
    (hinfo : ∀ t, s.valid t = true → info s' t = info s t) (hhash : readHash s' = readHash s)
    (hpage : readPage s' = readPage s) (hjmp : readJmp s' = readJmp s)
    (htarget : ∀ t, s.valid t = true → jmpTarget s' t = jmpTarget s t) : Inv cfg s' := by
  have hhashOn : hashOn cfg (frame s') = hashOn cfg (frame s) := hashOn_congr hvalid hinfo
  have hpageOn : pageOn cfg (frame s') = pageOn cfg (frame s) := pageOn_congr hvalid hinfo
  refine ⟨hwf, ?_, ?_, fun t ht hsame => ?_, ?_⟩
  · unfold HashLists
    rw [hhash, hhashOn]
    exact I.hash
  · unfold PageLists
    rw [hpage, hpageOn]
    exact I.page
  · rw [hvalid] at ht
    rw [hpage]
    exact I.adjacent t ht (hinfo t ht ▸ hsame)
  · obtain ⟨on, R⟩ := I.rings
    refine ⟨on, ?_, fun t n T h => ?_, fun t n ht h => ?_⟩
    · unfold JmpLists
      rw [hjmp, hvalid]
      exact R.lists
    · obtain ⟨hvt, hvT, hoff, htgt⟩ := R.slot t n T h
      rw [hvalid, hinfo t hvt, hinfo T hvT, htarget t hvt]
      exact ⟨hvt, hvT, hoff, htgt⟩
    · rw [hvalid] at ht
      rw [hjmp, hinfo t ht, htarget t ht]
      exact R.free t n ht h

theorem Inv.modifyTb (I : Inv cfg s) (htb : s.valid tb = false)
    (g : TranslationBlock → TranslationBlock) (hhash : (g (s.tbs tb)).physHashNext = (s.tbs tb).physHashNext)
    (hpage : (g (s.tbs tb)).pageNext = (s.tbs tb).pageNext) (hnext : (g (s.tbs tb)).jmpNext = (s.tbs tb).jmpNext)
    (hfirst : (g (s.tbs tb)).jmpFirst = (s.tbs tb).jmpFirst) : Inv cfg (s.modifyTb tb g) := by
  have hkeep : ∀ t, s.valid t = true → (s.modifyTb tb g).tbs t = s.tbs t := by
    intro t ht
    refine update_of_ne ?_ _ _
    rintro rfl
    simp [htb] at ht
  have hinfo : ∀ t, s.valid t = true → info (s.modifyTb tb g) t = info s t := by
    intro t ht
    simp [info, hkeep t ht]
  refine I.congr ?_ rfl hinfo (readHash_modifyTb s tb g hhash) (readPage_modifyTb s tb g hpage)
    (readJmp_modifyTb s tb g hnext hfirst) fun t ht => ?_
  · exact I.wf.grow tb (fun t ht => .inl ⟨ht, hinfo t ht⟩) le_rfl (fun _ h => h) le_rfl I.wf.ptr_aligned I.wf.ptr_le
  · funext n
    simp [jmpTarget, hkeep t ht]

theorem Inv.advance (I : Inv cfg s) {nb ptr : Nat} (hnb : s.nbTbs ≤ nb) (hptr : s.codeGenPtr ≤ ptr)
    (haligned : 16 ∣ ptr) (hle : ptr ≤ cfg.codeGenBufferSize) : Inv cfg { s with nbTbs := nb, codeGenPtr := ptr } :=
  I.congr (I.wf.grow 0 (fun _ ht => .inl ⟨ht, rfl⟩) hnb (fun _ h => h) hptr haligned hle) rfl (fun _ _ => rfl) rfl rfl rfl
    fun _ _ => rfl

/-- With no valid block and empty heads there is nothing to keep. -/
theorem inv_of_empty (hvalid : ∀ t, s.valid t = false) (hhash : ∀ h, readHash s (.head h) = none)
    (hpage : ∀ p, readPage s (.first p) = none) (haligned : 16 ∣ s.codeGenPtr)
    (hle : s.codeGenPtr ≤ cfg.codeGenBufferSize) : Inv cfg s := by
  have habsurd : ∀ {P : Prop} t, s.valid t = true → P := by
    intro P t ht
    simp [hvalid t] at ht
  refine ⟨⟨fun t ht => habsurd t ht, fun t ht => habsurd t ht, fun t _ _ ht => habsurd t ht,
    fun t _ _ ht => habsurd t ht, fun t ht => habsurd t ht, fun t _ ht => habsurd t ht, haligned, hle⟩,
    ⟨fun h _ => ⟨[], hhash h, fun t => ?_⟩, fun t h ht => ?_, fun t h ht => ?_⟩,
    ⟨fun p _ => ⟨[], hpage p, fun k => ?_⟩, fun k p hk => ?_, fun k p hk => ?_⟩,
    fun t ht => habsurd t ht, fun _ => none, ⟨fun t ht => habsurd t ht, fun c h hc => ?_, fun c h hc => ?_⟩,
    fun t n T h => ?_, fun t _ ht => habsurd t ht⟩
  · simp [hashOn, frame, hvalid]
  · simp [hashOn, frame, hvalid] at ht
  · simp [hashOn, frame, hvalid] at ht
  · simp [pageOn, frame, hvalid]
  · simp [pageOn, frame, hvalid] at hk
  · simp [pageOn, frame, hvalid] at hk
  · cases hc
  · cases hc
  · cases h

end Congruence

section Allocate

theorem Inv.first_none (I : Inv cfg s) {p : Nat} (hp : s.l1Map (pageGroup p) = false) :
    readPage s (.first p) = none := by
  obtain ⟨l, hpath, hl⟩ := I.page.path p trivial
  cases l with
  | nil => exact hpath
  | cons k l =>
    obtain ⟨ht, hk⟩ := ite_none_right_eq_some.mp ((hl k).mp (List.mem_cons_self ..))
    obtain ⟨a, ha, rfl⟩ := map_eq_some_iff.mp hk
    have := I.wf.alloc k.1 k.2 a ht ha
    rw [show (frame s).l1Map = s.l1Map from rfl, hp] at this
    cases this

theorem tbFlush_spec (I : Inv cfg s) :
    ∃ s', tbFlush cfg s = .ok s' ∧ Inv cfg s' ∧ s'.nbTbs = 0 ∧ s'.codeGenPtr = 0 ∧ s'.valid = fun _ => false := by
  refine ⟨_, if_neg (not_lt.mpr I.wf.ptr_le), ?_, rfl, rfl, rfl⟩
  refine inv_of_empty (fun _ => rfl) (fun _ => rfl) (fun p => ?_) (Nat.dvd_zero _) (Nat.zero_le _)
  unfold pageFlushTb readPage
  cases hp : s.l1Map (pageGroup p) with
  | true => simp [hp, invalidatePageBitmap]
  | false =>
    have hfirst := I.first_none hp
    unfold readPage at hfirst
    simpa [hp] using hfirst

theorem tbAlloc_spec (I : Inv cfg s) (h : tbAlloc cfg s pc = some (tb, s')) :
    Inv cfg s' ∧ tb = s.nbTbs ∧ s'.nbTbs = tb + 1 ∧ s'.valid = s.valid ∧ s'.codeGenPtr = s.codeGenPtr ∧
      s.codeGenPtr < cfg.codeGenBufferMaxSize ∧ (info s' tb).pc = pc := by
  unfold tbAlloc at h
  split at h
  · cases h
  next hroom =>
  rw [Option.some.injEq, Prod.mk.injEq] at h
  obtain ⟨rfl, rfl⟩ := h
  have hnew : s.valid s.nbTbs = false := by
    by_contra h
    exact lt_irrefl _ (I.wf.lt s.nbTbs (by simpa [frame] using h))
  have I' := (I.modifyTb hnew (fun b => { b with pc := pc, cflags := 0 }) rfl rfl rfl rfl).advance
    (le_succ _) le_rfl I.wf.ptr_aligned I.wf.ptr_le
  refine ⟨I', rfl, rfl, rfl, rfl, by omega, ?_⟩
  simp [info, State.modifyTb]

/-- What a newly taken block finds: it is not valid, and it comes after every valid one. -/
structure Taken (cfg : Config) (s : State) (tb : TbId) (pc : Nat) : Prop where
  inv : Inv cfg s
  last : s.nbTbs = tb + 1
  invalid : s.valid tb = false
  before : ∀ t, s.valid t = true → t < tb
  room : s.codeGenPtr < cfg.codeGenBufferMaxSize
  pc_eq : (info s tb).pc = pc

theorem tbAllocFlush_spec (I : Inv cfg s) (pc : Nat) :
    ∃ tb s', tbAllocFlush cfg s pc = .ok (tb, s') ∧ Taken cfg s' tb pc := by
  have htaken : ∀ {s : State} {tb s'}, Inv cfg s → tbAlloc cfg s pc = some (tb, s') → Taken cfg s' tb pc := by
    intro s tb s' I h
    obtain ⟨I', htb, hnb, hvalid, hptr, hroom, hpc⟩ := tbAlloc_spec I h
    have hbefore : ∀ t, s'.valid t = true → t < tb := by
      intro t ht
      rw [hvalid] at ht
      exact htb ▸ I.wf.lt t ht
    refine ⟨I', hnb, ?_, hbefore, hptr ▸ hroom, hpc⟩
    by_contra h
    exact lt_irrefl _ (hbefore tb (by simpa using h))
  unfold tbAllocFlush
  cases h : tbAlloc cfg s pc with
  | some r => exact ⟨r.1, r.2, rfl, htaken I h⟩
  | none =>
    obtain ⟨s₁, hok, I₁, hnb, hptr, hvalid⟩ := tbFlush_spec I
    -- An empty buffer has a block.
    have hsome : tbAlloc cfg s₁ pc ≠ none := by
      have h₁ := cfg.maxBlocks_pos
      have h₂ := cfg.bufferMaxSize_pos
      unfold tbAlloc
      rw [if_neg (by omega)]
      exact some_ne_none _
    obtain ⟨⟨tb, s₂⟩, h₂⟩ := ne_none_iff_exists'.mp hsome
    obtain ⟨I₂, hlast, hinvalid, hbefore, hroom, hpc⟩ := htaken I₁ h₂
    refine ⟨tb, { s₂ with tbInvalidatedFlag := true }, ?_, ?_, hlast, hinvalid, hbefore, hroom, hpc⟩
    · simp [bind, Except.bind, hok, h₂, pure, Except.pure]
    · exact I₂.congr I₂.wf rfl (fun _ _ => rfl) rfl rfl rfl fun _ _ => rfl

end Allocate

section Link

theorem tbAllocPage_frame (cfg : Config) (s : State) (tb : TbId) (n : Fin 2) (a : Nat) :
    frame (tbAllocPage cfg s tb n a) = { frame s with
      info := update (info s) tb ((info s tb).setPageAddr n a)
      l1Map := update s.l1Map (pageGroup (a >>> cfg.pageBits)) true } := by
  unfold tbAllocPage
  simp only [views_bitmap, views_writePage]
  simp only [frame, pageFindAlloc, State.modifyTb, Frame.mk.injEq, and_self, and_true]
  funext t
  by_cases ht : t = tb
  · subst ht
    simp [info]
  · simp [info, update_of_ne ht]

theorem tbAllocPage_reads (cfg : Config) (s : State) (tb : TbId) (n : Fin 2) (a : Nat) :
    readHash (tbAllocPage cfg s tb n a) = readHash s ∧ readJmp (tbAllocPage cfg s tb n a) = readJmp s ∧
      jmpTarget (tbAllocPage cfg s tb n a) = jmpTarget s ∧ readPage (tbAllocPage cfg s tb n a) =
        update (update (readPage s) (.next tb n) (readPage s (.first (a >>> cfg.pageBits))))
          (.first (a >>> cfg.pageBits)) (some (tb, n)) := by
  have hinfo := views_modifyInfo s tb (·.setPageAddr n a)
  unfold tbAllocPage
  simp [hinfo]

/-- What linking a block to its pages does: its page links are on the lists of the
pages, next to each other when both are on one, and only its data changes. -/
structure PagesLinked (cfg : Config) (s s' : State) (on : TbId × Fin 2 → Option Nat) (tb : TbId) (a₀ : Nat)
    (a₁ : Option Nat) : Prop where
  lists : PageLists s' fun k => if k.1 = tb then pageIndex cfg { info s tb with pageAddr0 := a₀, pageAddr1 := a₁ } k.2
    else on k
  info : info s' = Function.update (info s) tb { info s tb with pageAddr0 := a₀, pageAddr1 := a₁ }
  fields : s'.nbTbs = s.nbTbs ∧ s'.codeGenPtr = s.codeGenPtr ∧ s'.valid = s.valid
  l1Map : ∀ g, s.l1Map g = true → s'.l1Map g = true
  alloc : ∀ n a, ({ Tb.info s tb with pageAddr0 := a₀, pageAddr1 := a₁ } : Info).pageAddr n = some a →
    s'.l1Map (pageGroup (a >>> cfg.pageBits)) = true
  hash : readHash s' = readHash s
  jmp : readJmp s' = readJmp s
  target : jmpTarget s' = jmpTarget s
  others : ∀ t n, t ≠ tb → readPage s' (.next t n) = readPage s (.next t n)
  adjacent : a₁ = some a₀ → readPage s' (.next tb 1) = some (tb, 0)

variable {on : TbId × Fin 2 → Option Nat}

theorem pageLists_push (cfg : Config) {n : Fin 2} (L : PageLists s on) (hoff : on (tb, n) = none)
    (a : Nat) : PageLists (tbAllocPage cfg s tb n a) (update on (tb, n) (some (a >>> cfg.pageBits))) := by
  unfold PageLists
  rw [(tbAllocPage_reads cfg s tb n a).2.2.2]
  exact Lists.push L trivial (by simp [hoff]) (by simp [pageShape, pageCell]) (by simp [pageShape])

theorem tbAllocPage_fields (cfg : Config) (s : State) (tb : TbId) (n : Fin 2) (a : Nat) :
    (tbAllocPage cfg s tb n a).nbTbs = s.nbTbs ∧ (tbAllocPage cfg s tb n a).codeGenPtr = s.codeGenPtr ∧
      (tbAllocPage cfg s tb n a).valid = s.valid := by
  have hframe := tbAllocPage_frame cfg s tb n a
  exact ⟨nbTbs_of_frame hframe, congrArg Frame.codeGenPtr hframe, valid_of_frame hframe⟩

theorem tbAllocPage_l1Map (cfg : Config) (s : State) (tb : TbId) (n : Fin 2) (a g : Nat) :
    (tbAllocPage cfg s tb n a).l1Map g = true ↔ g = pageGroup (a >>> cfg.pageBits) ∨ s.l1Map g = true := by
  rw [l1Map_of_frame (tbAllocPage_frame cfg s tb n a)]
  simp only [Function.update_apply]
  split <;> simp_all

theorem tbAllocPage_others (cfg : Config) (s : State) (ht : t ≠ tb) (n m : Fin 2) (a : Nat) :
    readPage (tbAllocPage cfg s tb n a) (.next t m) = readPage s (.next t m) := by
  rw [(tbAllocPage_reads cfg s tb n a).2.2.2, update_of_ne (by simp), update_of_ne (by simp [ht])]

section
variable (L : PageLists s on) (hoff : ∀ n, on (tb, n) = none)
include L hoff

theorem tbLinkPages_one (a₀ : Nat) : PagesLinked cfg s (tbLinkPages cfg s tb a₀ none) on tb a₀ none := by
  obtain ⟨hhash, hjmp, htarget, -⟩ := tbAllocPage_reads cfg s tb 0 a₀
  have hfields := tbAllocPage_fields cfg s tb 0 a₀
  have hl1 := tbAllocPage_l1Map cfg s tb 0 a₀
  have hframe := tbAllocPage_frame cfg s tb 0 a₀
  have L₀ := pageLists_push cfg L (hoff 0) a₀
  have hothers := fun t (ht : t ≠ tb) m => tbAllocPage_others cfg s ht 0 m a₀
  unfold tbLinkPages
  generalize tbAllocPage cfg s tb 0 a₀ = s₁ at *
  have hreads := views_modifyInfo s₁ tb fun i => { i with pageAddr1 := none }
  have hpage : readPage (s₁.modifyTb tb fun b => { b with pageAddr1 := none }) = readPage s₁ := hreads.2.1
  refine ⟨?_, ?_, hfields, fun g hg => (hl1 g).mpr (.inr hg), fun n a ha => ?_, hreads.1.trans hhash,
    hreads.2.2.1.trans hjmp, hreads.2.2.2.trans htarget, fun t n ht => by rw [hpage, hothers t ht], by simp⟩
  · unfold PageLists at L₀ ⊢
    rw [hpage]
    convert L₀ with k
    obtain ⟨t, n⟩ := k
    by_cases ht : t = tb
    · subst ht
      by_cases hn : n = 0
      · simp [hn, pageIndex, pageAddr]
      · simp [hn, pageIndex, pageAddr, hoff]
    · simp [ht]
  · funext t
    have h : info s₁ t = _ := congrFun (info_of_frame hframe) t
    by_cases ht : t = tb
    · subst ht
      simp only [info, update_self] at h
      simp [info, State.modifyTb, h, setPageAddr]
    · simp only [update_of_ne ht] at h
      simp only [info, State.modifyTb, update_of_ne ht]
      exact h
  · refine (hl1 _).mpr (.inl ?_)
    by_cases hn : n = 0
    · simp only [pageAddr, hn, if_true, Option.some.injEq] at ha
      rw [ha]
    · simp [pageAddr, hn] at ha

theorem tbLinkPages_two (a₀ a : Nat) : PagesLinked cfg s (tbLinkPages cfg s tb a₀ (some a)) on tb a₀ (some a) := by
  obtain ⟨hhash, hjmp, htarget, hpage⟩ := tbAllocPage_reads cfg s tb 0 a₀
  have hfields := tbAllocPage_fields cfg s tb 0 a₀
  have hl1 := tbAllocPage_l1Map cfg s tb 0 a₀
  have hframe := tbAllocPage_frame cfg s tb 0 a₀
  have L₀ := pageLists_push cfg L (hoff 0) a₀
  have hothers := fun t (ht : t ≠ tb) m => tbAllocPage_others cfg s ht 0 m a₀
  unfold tbLinkPages
  generalize tbAllocPage cfg s tb 0 a₀ = s₁ at *
  obtain ⟨hhash', hjmp', htarget', hpage'⟩ := tbAllocPage_reads cfg s₁ tb 1 a
  obtain ⟨hnb', hptr', hvalid'⟩ := tbAllocPage_fields cfg s₁ tb 1 a
  have hl1' := tbAllocPage_l1Map cfg s₁ tb 1 a
  have L₁ := pageLists_push cfg L₀ (a := a) (n := 1) (by simpa using hoff 1)
  refine ⟨?_, ?_, ⟨hnb'.trans hfields.1, hptr'.trans hfields.2.1, hvalid'.trans hfields.2.2⟩,
    fun g hg => (hl1' g).mpr (.inr ((hl1 g).mpr (.inr hg))), fun n b hb => ?_, hhash'.trans hhash,
    hjmp'.trans hjmp, htarget'.trans htarget,
    fun t n ht => (tbAllocPage_others cfg s₁ ht 1 n a).trans (hothers t ht n), fun ha => ?_⟩
  · convert L₁ with k
    obtain ⟨t, n⟩ := k
    by_cases ht : t = tb
    · subst ht
      by_cases hn : n = 0
      · simp [hn, pageIndex, pageAddr]
      · obtain rfl : n = 1 := by omega
        simp [pageIndex, pageAddr]
    · simp [ht]
  · rw [info_of_frame (tbAllocPage_frame cfg s₁ tb 1 a), info_of_frame hframe]
    funext t
    by_cases ht : t = tb
    · subst ht
      simp [setPageAddr]
    · simp [ht]
  · by_cases hn : n = 0
    · simp only [pageAddr, hn, if_true, Option.some.injEq] at hb
      exact (hl1' _).mpr (.inr ((hl1 _).mpr (.inl (by rw [hb]))))
    · simp only [pageAddr, hn, if_false, Option.some.injEq] at hb
      exact (hl1' _).mpr (.inl (by rw [hb]))
  · obtain rfl : a = a₀ := Option.some.inj ha
    rw [hpage', update_of_ne (by simp), update_self, hpage, update_self]

theorem tbLinkPages_spec (a₀ : Nat) (a₁ : Option Nat) : PagesLinked cfg s (tbLinkPages cfg s tb a₀ a₁) on tb a₀ a₁ := by
  cases a₁ with
  | none => exact tbLinkPages_one L hoff a₀
  | some a => exact tbLinkPages_two L hoff a₀ a

end

theorem tbInitJump_spec (s : State) (tb : TbId) (n : Fin 2) :
    JmpStep s (tbInitJump s tb n) ∧ readJmp (tbInitJump s tb n) = readJmp s ∧ ∀ t m, jmpTarget (tbInitJump s tb n) t m =
        if t = tb ∧ m = n ∧ ((info s tb).tbNextOffset n).isSome then stub (info s tb) n else jmpTarget s t m := by
  unfold tbInitJump
  cases hoff : (s.tbs tb).tbNextOffset n with
  | none =>
    have hoff' : (info s tb).tbNextOffset n = none := hoff
    exact ⟨JmpStep.refl _, rfl, fun t m => by simp [hoff']⟩
  | some off =>
    have hoff' : (info s tb).tbNextOffset n = some off := hoff
    refine ⟨jmpStep_tbSetJmpTarget _ _ _ _, (views_tbSetJmpTarget _ _ _ _).2.2.2, fun t m => ?_⟩
    rw [isSome_some, if_pos rfl, tbResetJump_eq, jmpTarget_tbSetJmpTarget]
    simp [hoff']

/-- A block's jump fields when it is linked: an empty ring, null links, jumps to its stubs. -/
theorem tbInitJumps_spec (s : State) (tb : TbId) :
    JmpStep s (tbInitJumps s tb) ∧ readJmp (tbInitJumps s tb) (.first tb) = some (.first tb) ∧
      (∀ n, readJmp (tbInitJumps s tb) (.next tb n) = none) ∧
      (∀ t, t ≠ tb → readJmp (tbInitJumps s tb) (.first t) = readJmp s (.first t) ∧
        ∀ n, readJmp (tbInitJumps s tb) (.next t n) = readJmp s (.next t n)) ∧
      (∀ t, t ≠ tb → jmpTarget (tbInitJumps s tb) t = jmpTarget s t) ∧
      ∀ n, ((info s tb).tbNextOffset n).isSome → jmpTarget (tbInitJumps s tb) tb n = stub (info s tb) n := by
  have hstep := ((jmpStep_writeJmp s (some (.first tb)) (.first tb)).trans (jmpStep_writeJmp _ none (.next tb 0))).trans
    (jmpStep_writeJmp _ none (.next tb 1))
  have htarget : jmpTarget (writeJmp (writeJmp (writeJmp s (some (.first tb)) (.first tb)) none (.next tb 0)) none
      (.next tb 1)) = jmpTarget s := by
    simp [views_writeJmp]
  have hread : readJmp (tbInitJumps s tb) = update (update (update (readJmp s) (.first tb)
      (some (.first tb))) (.next tb 0) none) (.next tb 1) none := by
    simp [tbInitJumps, (tbInitJump_spec _ tb _).2.1, readJmp_writeJmp]
  simp only [hread]
  simp only [tbInitJumps]
  generalize writeJmp (writeJmp (writeJmp s (some (.first tb)) (.first tb)) none (.next tb 0)) none (.next tb 1) = s₁
    at *
  obtain ⟨hstep₀, -, htarget₀⟩ := tbInitJump_spec s₁ tb 0
  obtain ⟨hstep₁, -, htarget₁⟩ := tbInitJump_spec (tbInitJump s₁ tb 0) tb 1
  have hinfo₀ : info s₁ = info s := info_of_frame hstep.frame
  have hinfo₁ : info (tbInitJump s₁ tb 0) = info s := info_of_frame (hstep.trans hstep₀).frame
  rw [hinfo₀] at htarget₀
  rw [hinfo₁] at htarget₁
  refine ⟨(hstep.trans hstep₀).trans hstep₁, by simp, fun n => ?_, fun t ht => by simp [ht], fun t ht => ?_,
    fun n hn => ?_⟩
  · by_cases hn : n = 1
    · simp [hn]
    · obtain rfl : n = 0 := by omega
      simp
  · funext m
    rw [htarget₁, htarget₀, htarget]
    simp [ht]
  · rw [htarget₁, htarget₀, htarget]
    by_cases h : n = 1
    · subst h
      simp [hn]
    · obtain rfl : n = 0 := by omega
      simp [hn]

/-- What `tb_link_page` relies on: the block is not valid and comes after every
valid one, in `tbs[]` and in the code buffer, its code has been generated, and the
page addresses are those of its guest code. -/
structure Linkable (cfg : Config) (s : State) (tb : TbId) (physPc : Nat) (physPage2 : Option Nat) : Prop where
  inv : Inv cfg s
  invalid : s.valid tb = false
  lt : tb < s.nbTbs
  before : ∀ t, s.valid t = true → t < tb ∧ (info s t).EndsBelow (info s tb).tcPtr
  placed : (info s tb).EndsBelow s.codeGenPtr
  stub_pos : ∀ n off, (info s tb).tbNextOffset n = some off → 0 < off
  size_pos : 0 < (info s tb).size
  size_lt : (info s tb).pc % cfg.pageSize + (info s tb).size < 2 * cfg.pageSize
  offset : physPc % cfg.pageSize = (info s tb).pc % cfg.pageSize
  aligned : ∀ a, physPage2 = some a → cfg.pageSize ∣ a
  spans : physPage2.isSome ↔ cfg.pageSize < (info s tb).pc % cfg.pageSize + (info s tb).size

/-- What `tb_link_page` does to the block, which becomes `i`, and to each kind of list. -/
structure Linked (cfg : Config) (s s' : State) (tb : TbId) (physPc : Nat) (i : Info) : Prop where
  valid : s'.valid = Function.update s.valid tb true
  info : info s' = Function.update (info s) tb i
  nbTbs : s'.nbTbs = s.nbTbs
  codeGenPtr : s'.codeGenPtr = s.codeGenPtr
  l1Map : ∀ g, s.l1Map g = true → s'.l1Map g = true
  alloc : ∀ n a, i.pageAddr n = some a → s'.l1Map (pageGroup (a >>> cfg.pageBits)) = true
  hash : HashLists s' (Function.update (hashOn cfg (frame s)) tb (some (tbPhysHashFunc physPc)))
  page : PageLists s' fun k => if k.1 = tb then pageIndex cfg i k.2 else pageOn cfg (frame s) k
  adjacent : i.pageAddr1 = some i.pageAddr0 → readPage s' (.next tb 1) = some (tb, 0)
  others : ∀ t n, t ≠ tb → readPage s' (.next t n) = readPage s (.next t n)
  first : readJmp s' (.first tb) = some (.first tb)
  next : ∀ n, readJmp s' (.next tb n) = none
  jmp : ∀ t, t ≠ tb → readJmp s' (.first t) = readJmp s (.first t) ∧ ∀ n, readJmp s' (.next t n) = readJmp s (.next t n)
  target : ∀ t, t ≠ tb → jmpTarget s' t = jmpTarget s t
  stubs : ∀ n, (i.tbNextOffset n).isSome → jmpTarget s' tb n = stub i n

theorem tbLinkPage_linked (I : Inv cfg s) (hinvalid : s.valid tb = false) (physPc : Nat) (physPage2 : Option Nat) :
    Linked cfg s (tbLinkPage cfg s tb physPc physPage2) tb physPc
      { info s tb with pageAddr0 := physPc / cfg.pageSize * cfg.pageSize, pageAddr1 := physPage2 } := by
  have hhashOff : hashOn cfg (frame s) tb = none := if_neg (by simp [frame, hinvalid])
  have hpageOff : ∀ n, pageOn cfg (frame s) (tb, n) = none := fun n => if_neg (by simp [frame, hinvalid])
  simp only [tbLinkPage]
  -- the block at the head of its hash list
  generalize hs₁ : writeHash (writeHash s (readHash s (.head (tbPhysHashFunc physPc))) (.next tb)) (some tb)
    (.head (tbPhysHashFunc physPc)) = s₁
  have hframe₁ : frame s₁ = frame s := by rw [← hs₁]; simp
  have hpage₁ : readPage s₁ = readPage s := by rw [← hs₁]; simp
  have hjmp₁ : readJmp s₁ = readJmp s := by rw [← hs₁]; simp
  have htarget₁ : jmpTarget s₁ = jmpTarget s := by rw [← hs₁]; simp
  have L₁ : HashLists s₁ (update (hashOn cfg (frame s)) tb (some (tbPhysHashFunc physPc))) := by
    unfold HashLists
    rw [← hs₁, readHash_writeHash, readHash_writeHash]
    exact Lists.push I.hash trivial (by simp [hhashOff]) (by simp [hashShape]) (by simp [hashShape])
  -- and at the heads of the lists of its pages
  have L₂ : PageLists s₁ (pageOn cfg (frame s)) := by
    unfold PageLists
    rw [hpage₁]
    exact I.page
  have P : PagesLinked cfg s₁ _ _ tb _ _ :=
    tbLinkPages_spec L₂ hpageOff (physPc / cfg.pageSize * cfg.pageSize) physPage2
  generalize tbLinkPages cfg s₁ tb (physPc / cfg.pageSize * cfg.pageSize) physPage2 = s₂ at *
  have P_lists := P.lists
  have P_info := P.info
  have P_alloc := P.alloc
  have hinfo₁ : info s₁ = info s := info_of_frame hframe₁
  rw [hinfo₁] at P_lists P_info P_alloc
  generalize hi : ({ info s tb with pageAddr0 := physPc / cfg.pageSize * cfg.pageSize, pageAddr1 := physPage2 } : Info)
    = i at *
  have hinfo₂ : info s₂ tb = i := by rw [P_info, update_self]
  -- then its jumps are reset
  obtain ⟨hstep, hfirst, hnext, hread, htarget, hstubs⟩ := tbInitJumps_spec s₂ tb
  have hvalid : (tbInitJumps s₂ tb).valid = s.valid :=
    (valid_of_frame hstep.frame).trans (P.fields.2.2.trans (valid_of_frame hframe₁))
  have hhash : readHash { tbInitJumps s₂ tb with valid := update (tbInitJumps s₂ tb).valid tb true } =
      readHash s₁ := hstep.hash.trans P.hash
  have hpage : readPage { tbInitJumps s₂ tb with valid := update (tbInitJumps s₂ tb).valid tb true } =
      readPage s₂ := hstep.page
  constructor
  case valid => rw [hvalid]
  case info => exact (info_of_frame hstep.frame).trans P_info
  case nbTbs => exact (nbTbs_of_frame hstep.frame).trans (P.fields.1.trans (nbTbs_of_frame hframe₁))
  case codeGenPtr =>
    exact (congrArg Frame.codeGenPtr hstep.frame).trans (P.fields.2.1.trans (congrArg Frame.codeGenPtr hframe₁))
  case l1Map =>
    intro g hg
    rw [l1Map_of_frame hstep.frame]
    exact P.l1Map g (by rw [l1Map_of_frame hframe₁]; exact hg)
  case alloc =>
    intro n a ha
    rw [l1Map_of_frame hstep.frame]
    exact P_alloc n a ha
  case hash =>
    unfold HashLists
    rw [hhash]
    exact L₁
  case page =>
    unfold PageLists
    rw [hpage]
    exact P_lists
  case adjacent =>
    intro hsame
    rw [← hi] at hsame
    rw [hpage]
    exact P.adjacent hsame
  case others =>
    intro t n ht
    rw [hpage, P.others t n ht, hpage₁]
  case first => exact hfirst
  case next => exact hnext
  case jmp =>
    intro t ht
    refine ⟨(hread t ht).1.trans ?_, fun n => ((hread t ht).2 n).trans ?_⟩
    · rw [P.jmp, hjmp₁]
    · rw [P.jmp, hjmp₁]
  case target =>
    intro t ht
    exact (htarget t ht).trans (by rw [P.target, htarget₁])
  case stubs =>
    intro n hn
    rw [← hinfo₂] at hn ⊢
    exact hstubs n hn

namespace Linked
variable {i : Info}

section
variable (h : Linked cfg s s' tb physPc i)
include h

theorem self : Tb.info s' tb = i := by
  rw [h.info, update_self]

theorem other (ht : t ≠ tb) : Tb.info s' t = Tb.info s t := by
  rw [h.info, update_of_ne ht]

theorem hashOn_eq (hpc : i.pageAddr0 + i.pc % cfg.pageSize = physPc) :
    hashOn cfg (frame s') = update (hashOn cfg (frame s)) tb (some (tbPhysHashFunc physPc)) := by
  funext t
  by_cases ht : t = tb
  · subst ht
    simp [hashOn, frame, h.valid, h.self, hashIndex, hpc]
  · simp [hashOn, frame, h.valid, h.other ht, ht]

theorem pageOn_eq :
    pageOn cfg (frame s') = fun k => if k.1 = tb then pageIndex cfg i k.2 else pageOn cfg (frame s) k := by
  funext k
  by_cases hk : k.1 = tb
  · simp [pageOn, frame, h.valid, h.self, hk]
  · rw [if_neg hk]
    show (if s'.valid k.1 = true then pageIndex cfg (Tb.info s' k.1) k.2 else none) = _
    rw [h.valid, update_of_ne hk, h.other hk]
    rfl

theorem inv (I : Inv cfg s) (hinvalid : s.valid tb = false)
    (hwf : (frame s').Wf cfg) (hpc : i.pageAddr0 + i.pc % cfg.pageSize = physPc) : Inv cfg s' := by
  obtain ⟨on, R⟩ := I.rings
  refine ⟨hwf, ?_, ?_, fun t ht hsame => ?_, on, ?_⟩
  · rw [h.hashOn_eq hpc]
    exact h.hash
  · rw [h.pageOn_eq]
    exact h.page
  · by_cases he : t = tb
    · subst he
      rw [h.self] at hsame
      exact h.adjacent hsame
    · rw [h.valid, update_of_ne he] at ht
      rw [h.other he] at hsame
      rw [h.others t 1 he]
      exact I.adjacent t ht hsame
  · exact rings_insert R hinvalid h.valid (fun t ht => h.other ht) h.first h.next h.jmp h.target
      (h.self.symm ▸ h.stubs)

end

end Linked

theorem tbLinkPage_spec {physPage2 : Option Nat} (K : Linkable cfg s tb physPc physPage2) :
    Inv cfg (tbLinkPage cfg s tb physPc physPage2) ∧
      (tbLinkPage cfg s tb physPc physPage2).valid = update s.valid tb true ∧
      info (tbLinkPage cfg s tb physPc physPage2) = update (info s) tb { info s tb with
        pageAddr0 := physPc / cfg.pageSize * cfg.pageSize, pageAddr1 := physPage2 } := by
  have h := tbLinkPage_linked K.inv K.invalid physPc physPage2
  generalize tbLinkPage cfg s tb physPc physPage2 = s' at *
  refine ⟨h.inv K.inv K.invalid ?_ ?_, h.valid, h.info⟩
  · have hself : (frame s').info tb = _ := h.self
    have hptr : (frame s').codeGenPtr = s.codeGenPtr := h.codeGenPtr
    have hlast : (frame s).Last cfg (frame s') tb := by
      refine ⟨lt_of_lt_of_eq K.lt h.nbTbs.symm, ?_, ?_, ?_, ?_, ?_⟩ <;> rw [hself]
      · refine ⟨fun n a ha => ?_, K.size_pos, K.size_lt, K.spans⟩
        by_cases hn : n = 0
        · simp only [pageAddr, hn, if_true, Option.some.injEq] at ha
          exact ha ▸ dvd_mul_left _ _
        · simp only [pageAddr, hn, if_false] at ha
          exact K.aligned a ha
      · exact h.alloc
      · exact K.stub_pos
      · exact hptr ▸ K.placed
      · exact K.before
    refine K.inv.wf.grow tb (fun t ht => ?_) h.nbTbs.ge h.l1Map hptr.ge (hptr ▸ K.inv.wf.ptr_aligned)
      (hptr ▸ K.inv.wf.ptr_le)
    change s'.valid t = true at ht
    rw [h.valid, Function.update_apply] at ht
    split at ht
    next hne => exact .inr ⟨hne, hne ▸ hlast⟩
    next hne => exact .inl ⟨ht, h.other hne⟩
  · show physPc / cfg.pageSize * cfg.pageSize + (info s tb).pc % cfg.pageSize = physPc
    rw [← K.offset]
    exact div_add_mod' _ _

theorem Config.pageSize_pos (cfg : Config) : 0 < cfg.pageSize := Nat.two_pow_pos _

/-- The last byte of a block is on another page exactly when the block goes past
the end of the first. -/
theorem page_ne_iff (cfg : Config) (pc : Nat) {size : Nat} (hsize : 0 < size) :
    pc / cfg.pageSize * cfg.pageSize ≠ (pc + size - 1) / cfg.pageSize * cfg.pageSize ↔
      cfg.pageSize < pc % cfg.pageSize + size := by
  have hpos := cfg.pageSize_pos
  have hlast : (pc + size - 1) / cfg.pageSize = pc / cfg.pageSize + (pc % cfg.pageSize + size - 1) / cfg.pageSize := by
    have h : pc + size - 1 = pc % cfg.pageSize + size - 1 + cfg.pageSize * (pc / cfg.pageSize) := by
      have := mod_add_div pc cfg.pageSize
      omega
    rw [h, add_mul_div_left _ _ hpos, add_comm]
  rw [ne_eq, Nat.mul_left_inj (Nat.ne_of_gt hpos), hlast]
  constructor
  · intro h
    by_contra hle
    have hzero : (pc % cfg.pageSize + size - 1) / cfg.pageSize = 0 := div_eq_of_lt (by omega)
    exact h (by rw [hzero, add_zero])
  · intro h he
    have := div_pos (show cfg.pageSize ≤ pc % cfg.pageSize + size - 1 by omega) hpos
    omega

theorem linkable_generated (page : Nat) (T : Taken cfg s tb pc) (csBase flags cflags : Nat) (g : Translated cfg pc)
    (physPage2 : Option Nat) (haligned : ∀ a, physPage2 = some a → cfg.pageSize ∣ a)
    (hspans : physPage2.isSome ↔ cfg.pageSize < pc % cfg.pageSize + g.size) : Linkable cfg
      { (s.modifyTb tb fun b => { b with tcPtr := s.codeGenPtr, csBase := csBase, flags := flags, cflags := cflags }).modifyTb tb
          fun b => { b with size := g.size, icount := g.icount, tbNextOffset := g.tbNextOffset, tbNext := g.tbNext } with
        codeGenPtr := (s.codeGenPtr + g.codeGenSize + 15) / 16 * 16 }
      tb (page * cfg.pageSize + pc % cfg.pageSize) physPage2 := by
  obtain ⟨I, hlast, hinvalid, hbefore, hroom, hpc⟩ := T
  have I₂ := I.modifyTb hinvalid
    (fun b => { b with tcPtr := s.codeGenPtr, csBase := csBase, flags := flags, cflags := cflags }) rfl rfl rfl rfl
  have I₃ := I₂.modifyTb hinvalid
    (fun b => { b with size := g.size, icount := g.icount, tbNextOffset := g.tbNextOffset, tbNext := g.tbNext })
    rfl rfl rfl rfl
  have hgen := g.codeGenSize_le
  obtain ⟨k, hk⟩ := cfg.bufferSize_aligned
  have hmax := cfg.bufferMaxSize_le
  have I₄ := I₃.advance (le_refl s.nbTbs) (show s.codeGenPtr ≤ (s.codeGenPtr + g.codeGenSize + 15) / 16 * 16 by omega)
    (dvd_mul_left _ _) (by omega)
  generalize hs' : ({ (s.modifyTb tb fun b => { b with
        tcPtr := s.codeGenPtr, csBase := csBase, flags := flags, cflags := cflags }).modifyTb tb
      fun b => { b with size := g.size, icount := g.icount, tbNextOffset := g.tbNextOffset, tbNext := g.tbNext } with
    codeGenPtr := (s.codeGenPtr + g.codeGenSize + 15) / 16 * 16 } : State) = s' at *
  have hself : info s' tb = { info s tb with
      tcPtr := s.codeGenPtr, size := g.size, tbNextOffset := g.tbNextOffset } := by
    rw [← hs']
    simp [info, State.modifyTb]
  have hother : ∀ t, t ≠ tb → info s' t = info s t := by
    intro t ht
    rw [← hs']
    simp [info, State.modifyTb, ht]
  have hvalid : s'.valid = s.valid := by rw [← hs']; rfl
  have hptr : s.codeGenPtr + g.codeGenSize ≤ s'.codeGenPtr := by
    rw [← hs']
    show _ ≤ (s.codeGenPtr + g.codeGenSize + 15) / 16 * 16
    omega
  have hpc' : (info s' tb).pc = pc := by
    rw [hself]
    exact hpc
  have hmod : (page * cfg.pageSize + pc % cfg.pageSize) % cfg.pageSize = pc % cfg.pageSize := by
    rw [mul_add_mod', mod_mod]
  refine ⟨hs' ▸ I₄, by rw [hvalid]; exact hinvalid, ?_, fun t ht => ?_, ?_, ?_, ?_, ?_, by rw [hpc', hmod], haligned, ?_⟩
  · rw [show s'.nbTbs = s.nbTbs by rw [← hs']; rfl, hlast]
    exact lt_succ_self tb
  · rw [hvalid] at ht
    rw [hother t (Nat.ne_of_lt (hbefore t ht)), hself]
    exact ⟨hbefore t ht, I.wf.placed t ht⟩
  · rw [hself]
    have hpos := g.codeGenSize_pos
    refine ⟨show s.codeGenPtr < _ by omega, fun n off hoff => ?_⟩
    have := (g.offset_lt n off hoff).2
    show s.codeGenPtr + off < _
    omega
  · rw [hself]
    exact fun n off hoff => (g.offset_lt n off hoff).1
  · rw [hself]
    exact g.size_pos
  · rw [hpc', hself]
    exact g.size_lt
  · rw [hpc', hself]
    exact hspans

/-- Generating a block finishes and keeps the invariant, wherever a guest fault strikes. -/
theorem tbGenCode_spec (I : Inv cfg s) (pc csBase flags cflags : Nat) (mmu : Mmu) (gen : Option (Translated cfg pc)) :
    ∃ s', tbGenCode cfg s pc csBase flags cflags mmu gen = .ok s' ∧ Inv cfg s' := by
  unfold tbGenCode
  cases hmmu : mmu (pc / cfg.pageSize) with
  | none =>
    simp only [getPageAddrCode, hmmu, map_none]
    exact ⟨s, rfl, I⟩
  | some page =>
    simp only [getPageAddrCode, hmmu, map_some]
    obtain ⟨tb, s₁, hok, T⟩ := tbAllocFlush_spec I pc
    simp only [hok, bind, Except.bind]
    have I₂ := T.inv.modifyTb T.invalid
      (fun b => { b with tcPtr := s₁.codeGenPtr, csBase := csBase, flags := flags, cflags := cflags }) rfl rfl rfl rfl
    cases gen with
    | none => exact ⟨_, rfl, I₂⟩
    | some g =>
      have hpages := page_ne_iff cfg pc g.size_pos
      simp only
      split
      · next hne =>
        cases hmmu₂ : mmu ((pc + g.size - 1) / cfg.pageSize * cfg.pageSize / cfg.pageSize) with
        | none =>
          exact ⟨_, rfl, (linkable_generated page T csBase flags cflags g (some 0)
            (fun a ha => Option.some.inj ha ▸ Nat.dvd_zero _) (by simpa using hpages.mp hne)).inv⟩
        | some page₂ =>
          simp only [map_some]
          refine ⟨_, rfl, (tbLinkPage_spec (linkable_generated _ T csBase flags cflags g _ ?_ ?_)).1⟩
          · intro a ha
            rw [← Option.some.inj ha, mul_mod_left, add_zero]
            exact dvd_mul_left _ _
          · simpa using hpages.mp hne
      · next heq =>
        refine ⟨_, rfl, (tbLinkPage_spec (linkable_generated _ T csBase flags cflags g none (by simp) ?_)).1⟩
        simpa using fun h => heq (hpages.mpr h)

end Link

end GemDroid.Tb
