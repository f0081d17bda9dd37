import GemDroid.Lib.Fallible
import GemDroid.Tb.Find

/-! The jump caches of the processors (`cpu-exec.c`).

`tb_find_fast` takes a block from the cache if it was made for this state of the processor, and does
not ask whether it is still valid. So a block that is not may be in no cache. -/
namespace GemDroid.Tb
open Lib Option
open Function (update update_of_ne)

variable {cfg : Config} {q : Query} {s s' : State} {t tb : TbId} {cpu : Nat}

/-- `tb_find_fast` as far as the search of `tb_find_slow` goes. -/
def tbFindFastSearch (cfg : Config) (q : Query) (s : State) (cpu : Nat) : Except Fault (Found × State) :=
  match (s.tbJmpCache cpu (tbJmpCacheHashFunc cfg q.pc)).filter fun tb => q.same (s.tbs tb) with
  | some tb => return (.block tb, s)
  | none => tbFindSlowSearch cfg q s cpu

/-- What is cached is valid, and where a lookup looks for it. -/
def Cached (cfg : Config) (s : State) : Prop :=
  ∀ cpu k t, s.tbJmpCache cpu k = some t → s.valid t = true ∧ k = tbJmpCacheHashFunc cfg (s.tbs t).pc

/-- The caches, and what they rely on of the block `t`. -/
def look (s : State) (t : TbId) : (Nat → Nat → Option TbId) × Bool × Nat := (s.tbJmpCache, s.valid t, (s.tbs t).pc)

theorem Cached.of_look (h : Cached cfg s) (hlook : ∀ t, look s' t = look s t) : Cached cfg s' := by
  intro cpu k t hk
  have hcache : s'.tbJmpCache = s.tbJmpCache := congrArg Prod.fst (hlook t)
  have hvalid : s'.valid t = s.valid t := congrArg (·.2.1) (hlook t)
  have hpc : (s'.tbs t).pc = (s.tbs t).pc := congrArg (·.2.2) (hlook t)
  rw [hvalid, hpc]
  exact h cpu k t (hcache ▸ hk)

/-- A block that is not valid is in no cache, so it may change. -/
theorem Cached.of_fresh (h : Cached cfg s) (hnew : ∀ t, s.valid t = true → t < tb)
    (hlook : ∀ t, t ≠ tb → look s' t = look s t) : Cached cfg s' := by
  intro cpu k t hk
  have hcache : s'.tbJmpCache = s.tbJmpCache := congrArg Prod.fst (hlook (tb + 1) (by simp))
  have ht := h cpu k t (hcache ▸ hk)
  have hsame := hlook t (hnew t ht.1).ne
  have hvalid : s'.valid t = s.valid t := congrArg (·.2.1) hsame
  have hpc : (s'.tbs t).pc = (s.tbs t).pc := congrArg (·.2.2) hsame
  rwa [hvalid, hpc]

theorem cached_of_empty (h : ∀ cpu k, s.tbJmpCache cpu k = none) : Cached cfg s := by
  intro cpu k t hk
  simp [h] at hk

section Views

theorem look_modifyTb (u : TbId) (f : TranslationBlock → TranslationBlock)
    (hf : t ≠ u ∨ (f (s.tbs u)).pc = (s.tbs u).pc) : look (s.modifyTb u f) t = look s t := by
  by_cases ht : t = u
  · subst ht
    simpa [look, State.modifyTb] using hf
  · simp [look, State.modifyTb, update_of_ne ht]

@[simp] theorem look_writeHash (v : Option TbId) (c : HashCell) : look (writeHash s v c) t = look s t := by
  cases c with
  | head h => rfl
  | next u => exact look_modifyTb u _ (.inr rfl)

@[simp] theorem look_writePage (v : Option (TbId × Fin 2)) (c : PageCell) : look (writePage s v c) t = look s t := by
  cases c with
  | first p => rfl
  | next u n => exact look_modifyTb u _ (.inr rfl)

@[simp] theorem look_writeJmp (v : Option JmpLink) (c : JmpLink) : look (writeJmp s v c) t = look s t := by
  cases c <;> exact look_modifyTb _ _ (.inr rfl)

@[simp] theorem look_tbResetJump (u : TbId) (n : Fin 2) : look (tbResetJump s u n) t = look s t :=
  look_modifyTb u _ (.inr rfl)

theorem look_tbHashRemove {h : Nat} (hok : tbHashRemove s h tb = .ok s') : look s' t = look s t := by
  obtain ⟨c, -, hc⟩ := exists_ok_of_bind hok
  cases hc
  simp

theorem look_tbPageUnlink {a : Option Nat} (hok : tbPageUnlink cfg s tb a none = .ok s') : look s' t = look s t := by
  unfold tbPageUnlink at hok
  cases a with
  | none =>
    cases hok
    rfl
  | some a =>
    simp only [reduceCtorEq, if_false] at hok
    split at hok
    · cases hok
    obtain ⟨s₁, h₁, hs'⟩ := exists_ok_of_bind hok
    cases hs'
    obtain ⟨c, -, hc⟩ := exists_ok_of_bind h₁
    split at hc <;> cases hc
    · exact look_writePage _ c
    · rfl

theorem look_tbJmpRemove {n : Fin 2} (hok : tbJmpRemove s tb n = .ok s') : look s' t = look s t := by
  unfold tbJmpRemove at hok
  split at hok
  · cases hok
    rfl
  · obtain ⟨c, -, hc⟩ := exists_ok_of_bind hok
    cases hc
    simp

theorem look_tbJmpUnchain {fuel : Nat} {k : Option JmpLink} (hok : tbJmpUnchain fuel s k = .ok s') :
    look s' t = look s t := by
  induction fuel generalizing s k with
  | zero => cases hok
  | succ fuel ih =>
    obtain _ | ⟨u, n⟩ | u := k
    · cases hok
    · exact (ih hok).trans (by simp)
    · cases hok
      rfl

theorem look_pageFindAlloc (p : Nat) : look (pageFindAlloc s p) t = look s t := rfl

theorem look_tbAllocPage (ht : t ≠ tb) (n : Fin 2) (a : Nat) : look (tbAllocPage cfg s tb n a) t = look s t := by
  refine (look_writePage _ _).trans ((look_writePage _ _).trans ((look_pageFindAlloc _).trans ?_))
  exact look_modifyTb tb _ (.inl ht)

theorem look_tbLinkPage (ht : t ≠ tb) (physPc : Nat) (physPage2 : Option Nat) :
    look (tbLinkPage cfg s tb physPc physPage2) t = look s t := by
  have hjumps : ∀ s : State, look (tbInitJumps s tb) t = look s t := by
    intro s
    unfold tbInitJumps tbInitJump
    dsimp only
    split <;> split <;> simp
  have hpages : ∀ s : State, ∀ a, look (tbLinkPages cfg s tb a physPage2) t = look s t := by
    intro s a
    cases physPage2 with
    | none => exact (look_modifyTb tb _ (.inl ht)).trans (look_tbAllocPage ht 0 a)
    | some b => exact (look_tbAllocPage ht 1 b).trans (look_tbAllocPage ht 0 a)
  have hvalid : ∀ s : State, look { s with valid := update s.valid tb true } t = look s t := by
    intro s
    simp [look, update_of_ne ht]
  exact (hvalid _).trans ((hjumps _).trans ((hpages _ _).trans (by simp)))

end Views

section Operations

/-- The caches of all processors without a block. -/
def forgetTb (cfg : Config) (s : State) (tb : TbId) : Nat → Nat → Option TbId := fun cpu =>
  if s.tbJmpCache cpu (tbJmpCacheHashFunc cfg (s.tbs tb).pc) = some tb then
    update (s.tbJmpCache cpu) (tbJmpCacheHashFunc cfg (s.tbs tb).pc) none else s.tbJmpCache cpu

theorem of_forgetTb {k : Nat} (h : forgetTb cfg s tb cpu k = some t) :
    s.tbJmpCache cpu k = some t ∧ (t = tb → k ≠ tbJmpCacheHashFunc cfg (s.tbs tb).pc) := by
  unfold forgetTb at h
  grind

theorem Cached.tbPhysInvalidate (h : Cached cfg s) (hok : tbPhysInvalidate cfg s tb none = .ok s') : Cached cfg s' := by
  obtain ⟨s₁, h₁, hok⟩ := exists_ok_of_bind hok
  obtain ⟨s₂, h₂, hok⟩ := exists_ok_of_bind hok
  obtain ⟨s₃, h₃, hok⟩ := exists_ok_of_bind hok
  obtain ⟨s₄, h₄, hok⟩ := exists_ok_of_bind hok
  obtain ⟨s₅, h₅, hok⟩ := exists_ok_of_bind hok
  obtain ⟨s₆, h₆, hok⟩ := exists_ok_of_bind hok
  have hbefore : ∀ t, look s₃ t = look s t := fun t =>
    (look_tbPageUnlink h₃).trans ((look_tbPageUnlink h₂).trans (look_tbHashRemove h₁))
  have hcache₃ : s₃.tbJmpCache = s.tbJmpCache := congrArg Prod.fst (hbefore tb)
  have hlook : ∀ t, look (writeJmp s₆ (some (.first tb)) (.first tb)) t = (forgetTb cfg s tb, (look s t).2) := by
    intro t
    rw [look_writeJmp, look_tbJmpUnchain h₆, look_tbJmpRemove h₅, look_tbJmpRemove h₄, ← hbefore t]
    unfold forgetTb
    rw [← hcache₃]
    rfl
  cases hok
  intro cpu k t hk
  have hforget : forgetTb cfg s tb cpu k = some t := by
    rw [← show (writeJmp s₆ _ _).tbJmpCache = forgetTb cfg s tb from congrArg Prod.fst (hlook tb)]
    exact hk
  obtain ⟨hk, hne⟩ := of_forgetTb hforget
  obtain ⟨ht, hhash⟩ := h cpu k t hk
  have htb : t ≠ tb := fun he => hne he (he ▸ hhash)
  have hpc : ((writeJmp s₆ (some (.first tb)) (.first tb)).tbs t).pc = (s.tbs t).pc := congrArg (·.2.2) (hlook t)
  exact ⟨(update_of_ne htb _ _).trans ((congrArg (·.2.1) (hlook t)).trans ht), hhash.trans (by rw [← hpc])⟩

theorem Cached.tbInvalidateFrom {start stop fuel : Nat} {k : Option (TbId × Fin 2)} (h : Cached cfg s)
    (hok : tbInvalidateFrom cfg start stop fuel s k = .ok s') : Cached cfg s' := by
  induction fuel generalizing s k with
  | zero => cases hok
  | succ fuel ih =>
    obtain _ | ⟨tb, n⟩ := k
    · cases hok
      exact h
    · unfold Tb.tbInvalidateFrom at hok
      dsimp only at hok
      split at hok
      · obtain ⟨s₁, h₁, hok⟩ := exists_ok_of_bind hok
        exact ih (h.tbPhysInvalidate h₁) hok
      · exact ih h hok

theorem Cached.tbInvalidatePhysPageRange {start stop : Nat} {w : Bool} (h : Cached cfg s)
    (hok : tbInvalidatePhysPageRange cfg s start stop w = .ok s') : Cached cfg s' := by
  simp only [Tb.tbInvalidatePhysPageRange] at hok
  split at hok
  · cases hok
    exact h
  · obtain ⟨s₁, h₁, hok⟩ := exists_ok_of_bind hok
    obtain ⟨s₂, h₂, hok⟩ := exists_ok_of_bind hok
    have hcount : ∀ t, look s₁ t = look s t := by
      intro t
      unfold countCodeWrite at h₁
      split at h₁
      · dsimp only at h₁
        split at h₁
        · obtain ⟨tab, -, h₁⟩ := exists_ok_of_bind h₁
          cases h₁
          rfl
        · cases h₁
          rfl
      · cases h₁
        rfl
    have hinvalidated := (h.of_look hcount).tbInvalidateFrom h₂
    split at hok <;> cases hok <;> exact hinvalidated

theorem Cached.tbInvalidatePages {stop k start : Nat} {w : Bool} (h : Cached cfg s)
    (hok : tbInvalidatePages cfg stop w k s start = .ok s') : Cached cfg s' := by
  induction k generalizing s start with
  | zero =>
    unfold Tb.tbInvalidatePages at hok
    split at hok <;> cases hok
    exact h
  | succ k ih =>
    unfold Tb.tbInvalidatePages at hok
    split at hok
    · obtain ⟨s₁, h₁, hok⟩ := exists_ok_of_bind hok
      exact ih (h.tbInvalidatePhysPageRange h₁) hok
    · cases hok
      exact h

theorem cached_tbFlush (hok : tbFlush cfg s = .ok s') : Cached cfg s' := by
  unfold tbFlush at hok
  split at hok <;> cases hok
  exact cached_of_empty fun _ _ => rfl

theorem look_tbAlloc {pc : Nat} (h : tbAlloc cfg s pc = some (tb, s')) :
    tb = s.nbTbs ∧ ∀ t, t ≠ tb → look s' t = look s t := by
  unfold tbAlloc at h
  split at h <;> cases h
  exact ⟨rfl, fun t ht => by simp [look, State.modifyTb, update_of_ne ht]⟩

theorem Cached.tbAllocFlush (h : Cached cfg s) (I : Inv cfg s) {pc : Nat}
    (hok : tbAllocFlush cfg s pc = .ok (tb, s')) : Cached cfg s' := by
  unfold Tb.tbAllocFlush at hok
  split at hok
  next r halloc =>
    cases hok
    obtain ⟨rfl, hlook⟩ := look_tbAlloc halloc
    exact h.of_fresh I.wf.lt hlook
  next =>
    obtain ⟨s₁, h₁, hok⟩ := exists_ok_of_bind hok
    obtain ⟨_, h₁', I₁, -⟩ := tbFlush_spec I
    cases h₁.symm.trans h₁'
    split at hok
    next r halloc =>
      cases hok
      obtain ⟨rfl, hlook⟩ := look_tbAlloc halloc
      exact (cached_tbFlush h₁).of_fresh I₁.wf.lt hlook
    next => cases hok

theorem Cached.tbGenCode (h : Cached cfg s) (I : Inv cfg s) {pc csBase flags cflags : Nat} {mmu : Mmu}
    {gen : Option (Translated cfg pc)} (hok : tbGenCode cfg s pc csBase flags cflags mmu gen = .ok s') : Cached cfg s' := by
  unfold Tb.tbGenCode at hok
  split at hok
  · cases hok
    exact h
  obtain ⟨⟨tb, s₁⟩, h₁, hok⟩ := exists_ok_of_bind hok
  obtain ⟨_, _, h₁', T⟩ := tbAllocFlush_spec I pc
  cases h₁.symm.trans h₁'
  refine (h.tbAllocFlush I h₁).of_fresh T.before fun t ht => ?_
  have hgen : ∀ (f g : TranslationBlock → TranslationBlock) (ptr : Nat),
      look { (s₁.modifyTb tb f).modifyTb tb g with codeGenPtr := ptr } t = look s₁ t := by
    intro f g ptr
    simp [look, State.modifyTb, update_of_ne ht]
  dsimp only at hok
  split at hok
  · cases hok
    exact look_modifyTb tb _ (.inl ht)
  split at hok
  · split at hok <;> cases hok
    · exact hgen _ _ _
    · exact (look_tbLinkPage ht _ _).trans (hgen _ _ _)
  · cases hok
    exact (look_tbLinkPage ht _ _).trans (hgen _ _ _)

end Operations

section Runs

theorem tbJmpCache_enterTb (cpu' k pc : Nat) : (enterTb cfg s cpu pc tb).tbJmpCache cpu' k =
    if cpu' = cpu ∧ k = tbJmpCacheHashFunc cfg pc then some tb else s.tbJmpCache cpu' k := by
  by_cases hcpu : cpu' = cpu
  · simp [enterTb, hcpu, Function.update_apply]
  · simp [enterTb, hcpu]

theorem Cached.acts (I : Inv cfg s) (h : Cached cfg s) {a : Act cfg} (hacts : Acts cfg s a s') : Cached cfg s' := by
  cases a with
  | op op =>
    obtain ⟨-, hok⟩ := hacts
    cases op with
    | genCode pc csBase flags cflags mmu gen => exact h.tbGenCode I hok
    | addJump tb n T =>
      cases hok
      refine h.of_look fun t => ?_
      unfold tbAddJump
      split
      · rfl
      · exact (look_writeJmp _ _).trans ((look_writeJmp _ _).trans (look_modifyTb tb _ (.inr rfl)))
    | physInvalidate tb => exact h.tbPhysInvalidate hok
    | invalidatePhysPageRange start stop w => exact h.tbInvalidatePhysPageRange hok
    | invalidatePhysRange start stop w => exact h.tbInvalidatePages hok
    | flush => exact cached_tbFlush hok
  | enter cpu tb =>
    obtain ⟨htb, rfl⟩ := hacts
    intro cpu' k t hk
    rw [tbJmpCache_enterTb] at hk
    split at hk
    next hnew =>
      cases hk
      exact ⟨htb, hnew.2⟩
    next => exact h cpu' k t hk
  | search q cpu =>
    obtain ⟨r, hr⟩ := hacts
    obtain ⟨_, s₁, hok, -, hframe, hfinds⟩ := tbFindSlowSearch_spec I q cpu
    cases hr.symm.trans hok
    have hvalid : s'.valid = s.valid := valid_of_frame hframe
    have hpc : ∀ t, (s'.tbs t).pc = (s.tbs t).pc := fun t => congrArg (·.pc) (congrFun (info_of_frame hframe) t)
    intro cpu' k t hk
    rw [hvalid, hpc]
    cases r with
    | missing => exact h cpu' k t (hfinds.2 ▸ hk)
    | unwound => exact h cpu' k t (hfinds.2 ▸ hk)
    | block tb =>
      obtain ⟨htb, ⟨hsame, -⟩, hcache⟩ := hfinds
      have hpc : (s.tbs tb).pc = q.pc := by
        simp only [Query.same, Bool.and_eq_true, beq_iff_eq] at hsame
        exact hsame.1.1
      rw [hcache, tbJmpCache_enterTb] at hk
      split at hk
      next hnew =>
        cases hk
        exact ⟨htb, by rw [hpc, hnew.2]⟩
      next => exact h cpu' k t hk

end Runs

end GemDroid.Tb
