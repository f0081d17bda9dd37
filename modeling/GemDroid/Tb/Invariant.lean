import GemDroid.Tb.Jumps

/-! The invariant of the translation blocks, and that invalidating a block keeps it.

A valid block is on the hash chain of its physical address and, once for each of
its pages, on that page's list; nothing else is on these lists. The rest of the
invariant is what the code relies on to keep it: blocks are well formed, their
page descriptors exist, their host code lies in order in the code buffer, and the
two links of a block on one page are neighbours. -/
namespace GemDroid.Tb
open Function (update)
open Lib.LinkPath Option

variable {cfg : Config} {tb : TbId}

section Places
variable (cfg : Config)

def hashIndex (i : Info) : Nat := tbPhysHashFunc (i.pageAddr0 + i.pc % cfg.pageSize)

def pageIndex (i : Info) (n : Fin 2) : Option Nat := (i.pageAddr n).map (· >>> cfg.pageBits)

def hashOn (f : Frame) (t : TbId) : Option Nat := if f.valid t then some (hashIndex cfg (f.info t)) else none

def pageOn (f : Frame) (k : TbId × Fin 2) : Option Nat := if f.valid k.1 then pageIndex cfg (f.info k.1) k.2 else none

end Places

/-- A block has one or two page-aligned pages, two exactly when its guest code goes
past the end of the first. -/
structure Info.Wf (cfg : Config) (i : Info) : Prop where
  aligned : ∀ n a, i.pageAddr n = some a → cfg.pageSize ∣ a
  size_pos : 0 < i.size
  size_lt : i.pc % cfg.pageSize + i.size < 2 * cfg.pageSize
  spans : i.pageAddr1.isSome ↔ cfg.pageSize < i.pc % cfg.pageSize + i.size

/-- The entry and the exit stubs of a block lie below `x`. -/
def Info.EndsBelow (i : Info) (x : Nat) : Prop :=
  i.tcPtr < x ∧ ∀ n off, i.tbNextOffset n = some off → i.tcPtr + off < x

structure Frame.Wf (cfg : Config) (f : Frame) : Prop where
  lt : ∀ t, f.valid t = true → t < f.nbTbs
  info : ∀ t, f.valid t = true → (f.info t).Wf cfg
  alloc : ∀ t n a, f.valid t = true → (f.info t).pageAddr n = some a → f.l1Map (pageGroup (a >>> cfg.pageBits)) = true
  stub_pos : ∀ t n off, f.valid t = true → (f.info t).tbNextOffset n = some off → 0 < off
  placed : ∀ t, f.valid t = true → (f.info t).EndsBelow f.codeGenPtr
  ordered : ∀ t u, f.valid t = true → f.valid u = true → t < u → (f.info t).EndsBelow (f.info u).tcPtr
  ptr_aligned : 16 ∣ f.codeGenPtr
  ptr_le : f.codeGenPtr ≤ cfg.codeGenBufferSize

structure Inv (cfg : Config) (s : State) : Prop where
  wf : (frame s).Wf cfg
  hash : HashLists s (hashOn cfg (frame s))
  page : PageLists s (pageOn cfg (frame s))
  adjacent : ∀ t, s.valid t = true → (info s t).pageAddr1 = some (info s t).pageAddr0 →
    readPage s (.next t 1) = some (t, 0)
  rings : ∃ on, Rings s on

section Places
variable {f f' : Frame}

theorem hashOn_lt (hwf : f.Wf cfg) {t : TbId} (h : (hashOn cfg f t).isSome) : t < f.nbTbs := by
  obtain ⟨b, hb⟩ := isSome_iff_exists.mp h
  exact hwf.lt t (ite_none_right_eq_some.mp hb).1

theorem pageOn_lt (hwf : f.Wf cfg) {k : TbId × Fin 2} (h : (pageOn cfg f k).isSome) : k.1 < f.nbTbs := by
  obtain ⟨p, hp⟩ := isSome_iff_exists.mp h
  exact hwf.lt k.1 (ite_none_right_eq_some.mp hp).1

theorem Frame.Wf.shrink (hwf : f.Wf cfg) {valid : TbId → Bool} (h : ∀ t, valid t = true → f.valid t = true) :
    ({ f with valid := valid } : Frame).Wf cfg where
  lt t ht := hwf.lt t (h t ht)
  info t ht := hwf.info t (h t ht)
  alloc t n a ht := hwf.alloc t n a (h t ht)
  stub_pos t n off ht := hwf.stub_pos t n off (h t ht)
  placed t ht := hwf.placed t (h t ht)
  ordered t u ht hu := hwf.ordered t u (h t ht) (h u hu)
  ptr_aligned := hwf.ptr_aligned
  ptr_le := hwf.ptr_le

theorem hashOn_invalidate (cfg : Config) (f : Frame) (tb : TbId) :
    hashOn cfg { f with valid := update f.valid tb false } = update (hashOn cfg f) tb none := by
  funext t
  by_cases ht : t = tb
  · simp [hashOn, ht]
  · simp [hashOn, ht]

theorem pageOn_invalidate (cfg : Config) (f : Frame) (tb : TbId) :
    pageOn cfg { f with valid := update f.valid tb false } = fun k => if k.1 = tb then none else pageOn cfg f k := by
  funext k
  by_cases hk : k.1 = tb
  · simp [pageOn, hk]
  · simp [pageOn, hk]

end Places

section Invalidate
variable {s s' : State} {on : JmpLink → Option TbId}

theorem Rings.congr (R : Rings s on) (hframe : frame s' = frame s) (hjmp : readJmp s' = readJmp s)
    (htarget : jmpTarget s' = jmpTarget s) : Rings s' on := by
  have hvalid : s'.valid = s.valid := valid_of_frame hframe
  have hinfo : info s' = info s := info_of_frame hframe
  obtain ⟨hlists, hslot, hfree⟩ := R
  exact ⟨by unfold JmpLists; rwa [hjmp, hvalid], by rwa [hvalid, hinfo, htarget], by rwa [hvalid, hinfo, htarget, hjmp]⟩

theorem valid_of_invalidated (hframe : frame s' = { frame s with valid := update s.valid tb false }) {t : TbId}
    (ht : s'.valid t = true) : t ≠ tb ∧ s.valid t = true := by
  rw [valid_of_frame hframe] at ht
  exact update_valid_false ht

theorem Inv.invalidated (I : Inv cfg s) (hframe : frame s' = { frame s with valid := update s.valid tb false })
    (hhash : HashLists s' (update (hashOn cfg (frame s)) tb none))
    (hpage : PageLists s' fun k => if k.1 = tb then none else pageOn cfg (frame s) k)
    (hread : ∀ c, readPage s' c = readPage s c ∨ ∃ n, readPage s c = some (tb, n)) (hrings : ∃ on, Rings s' on) :
    Inv cfg s' := by
  refine ⟨?_, ?_, ?_, fun t ht hsame => ?_, hrings⟩
  · rw [hframe]
    exact I.wf.shrink fun t ht => (update_valid_false ht).2
  · rw [hframe]
    exact hashOn_invalidate cfg (frame s) tb ▸ hhash
  · rw [hframe]
    exact pageOn_invalidate cfg (frame s) tb ▸ hpage
  · have hinfo : info s' = info s := info_of_frame hframe
    obtain ⟨hne, ht⟩ := valid_of_invalidated hframe ht
    have hadj := I.adjacent t ht (hinfo ▸ hsame)
    rcases hread (.next t 1) with h | ⟨n, h⟩
    · rw [h, hadj]
    · rw [hadj] at h
      exact absurd (congrArg Prod.fst (some.inj h)) hne

/-- Invalidating a valid block finishes, keeps the invariant and takes exactly this
block off the valid ones. A page link that changes pointed to the block. -/
theorem tbPhysInvalidate_spec (I : Inv cfg s) (htb : s.valid tb = true) :
    ∃ s', tbPhysInvalidate cfg s tb none = .ok s' ∧ Inv cfg s' ∧
      frame s' = { frame s with valid := update s.valid tb false } ∧
      ∀ c, readPage s' c = readPage s c ∨ ∃ n, readPage s c = some (tb, n) := by
  obtain ⟨on, R⟩ := I.rings
  have hhash : hashOn cfg (frame s) tb = some (hashIndex cfg (info s tb)) := if_pos htb
  obtain ⟨s₁, hok₁, L₁, hstep₁⟩ := tbHashRemove_spec I.hash hhash fun t h => hashOn_lt I.wf h
  have hpage₁ : PageLists s₁ (pageOn cfg (frame s)) := by
    unfold PageLists
    rw [hstep₁.page]
    exact I.page
  have hnb₁ : s₁.nbTbs = s.nbTbs := nbTbs_of_frame hstep₁.frame
  have hl1₁ : s₁.l1Map = s.l1Map := l1Map_of_frame hstep₁.frame
  obtain ⟨s₂, s₃, hok₂, hok₃, L₃, hstep₃, hread₃⟩ := tbPageUnlink_both cfg tb (info s tb).pageAddr0
    (info s tb).pageAddr1 hpage₁ (if_pos htb) (if_pos htb)
    (fun k h => hnb₁ ▸ pageOn_lt I.wf h) (hl1₁ ▸ I.wf.alloc tb 0 _ htb rfl)
    (fun a ha => hl1₁ ▸ I.wf.alloc tb 1 a htb ha)
  have hframe₃ : frame s₃ = frame s := hstep₃.frame.trans hstep₁.frame
  generalize hs₄ : ({ s₃ with
    tbInvalidatedFlag := true
    tbJmpCache := fun cpu => if s₃.tbJmpCache cpu (tbJmpCacheHashFunc cfg (s.tbs tb).pc) = some tb then
        update (s₃.tbJmpCache cpu) (tbJmpCacheHashFunc cfg (s.tbs tb).pc) none
      else s₃.tbJmpCache cpu } : State) = s₄
  have hframe₄ : frame s₄ = frame s := by rw [← hs₄]; exact hframe₃
  have R₄ : Rings s₄ on := by
    refine R.congr hframe₄ ?_ ?_
    · rw [← hs₄]
      exact hstep₃.jmp.trans hstep₁.jmp
    · rw [← hs₄]
      exact hstep₃.target.trans hstep₁.target
  have hvalid₄ : s₄.valid = s.valid := valid_of_frame hframe₄
  obtain ⟨s₅, s₆, s₇, hok₅, hok₆, hok₇, hstep₇, hrings⟩ := rings_invalidate R₄ tb (hvalid₄ ▸ htb)
    (fun t ht => by
      rw [nbTbs_of_frame hframe₄]
      rw [hvalid₄] at ht
      exact I.wf.lt t ht)
  have hframe₇ : frame s₇ = frame s := hstep₇.frame.trans hframe₄
  have hstep₈ := jmpStep_writeJmp s₇ (some (.first tb)) (.first tb)
  generalize hs' : ({ writeJmp s₇ (some (.first tb)) (.first tb) with
    tbPhysInvalidateCount := (writeJmp s₇ (some (.first tb)) (.first tb)).tbPhysInvalidateCount + 1
    valid := update (writeJmp s₇ (some (.first tb)) (.first tb)).valid tb false } : State) = s'
  have hvalid₈ : (writeJmp s₇ (some (.first tb)) (.first tb)).valid = s.valid :=
    valid_of_frame (hstep₈.frame.trans hframe₇)
  have hframe' : frame s' = { frame s with valid := update s.valid tb false } := by
    have h := hstep₈.frame.trans hframe₇
    rw [← hs', ← h]
    simp only [hvalid₈]
    rfl
  have hpage' : readPage s' = readPage s₃ := by
    rw [← hs']
    refine hstep₈.page.trans (hstep₇.page.trans ?_)
    rw [← hs₄]
    rfl
  have hhash' : readHash s' = readHash s₁ := by
    rw [← hs']
    refine hstep₈.hash.trans (hstep₇.hash.trans ?_)
    rw [← hs₄]
    exact hstep₃.hash
  have hread' : ∀ c, readPage s' c = readPage s c ∨ ∃ n, readPage s c = some (tb, n) := by
    rw [hpage', ← hstep₁.page]
    exact hread₃
  refine ⟨s', ?_, I.invalidated hframe' ?_ ?_ hread' ?_, hframe', hread'⟩
  · simp only [tbPhysInvalidate, bind, Except.bind, pure, Except.pure]
    rw [show tbHashRemove s (tbPhysHashFunc ((s.tbs tb).pageAddr0 + (s.tbs tb).pc % cfg.pageSize)) tb = .ok s₁
      from hok₁]
    simp only
    rw [show tbPageUnlink cfg s₁ tb (some (s.tbs tb).pageAddr0) none = .ok s₂ from hok₂]
    simp only
    rw [show tbPageUnlink cfg s₂ tb (s.tbs tb).pageAddr1 none = .ok s₃ from hok₃]
    simp [hs₄, hok₅, hok₆, hok₇, hs']
  · unfold HashLists
    rw [hhash']
    exact L₁
  · unfold PageLists
    rw [hpage']
    exact L₃
  · refine hrings s' ?_ ?_ ?_ ?_
    · rw [info_of_frame hframe', info_of_frame hframe₄]
    · rw [valid_of_frame hframe', hvalid₄]
    · rw [← hs']
      exact readJmp_writeJmp s₇ (some (.first tb)) (.first tb)
    · rw [← hs']
      exact (views_writeJmp s₇ (some (.first tb)) (.first tb)).2.2.2

end Invalidate

end GemDroid.Tb
