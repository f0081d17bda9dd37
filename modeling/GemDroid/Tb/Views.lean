import GemDroid.Lib.LinkLists
import GemDroid.Tb.State
import Mathlib.Data.Fintype.Card
import Mathlib.Data.Finset.Prod

/-! The state of the translation blocks as seen by its invariants.

The hash chains, the page lists and the jump rings are three families of linked
lists. Beside the links a state has the fixed data of each block (`Info`), where
its native jumps go, and a few counters. Every write of the code changes one of
these views; the lemmas say so once, and the proofs about the operations never
look into the records again. -/
namespace GemDroid.Tb
open Lib.LinkPath Function State

def info (s : State) (t : TbId) : Info := (s.tbs t).toInfo

def jmpTarget (s : State) (t : TbId) (n : Fin 2) : Nat := (s.tbs t).tbNext n

/-- The views that no link write changes. -/
structure Frame where
  info : TbId → Info
  nbTbs : Nat
  l1Map : Nat → Bool
  codeGenPtr : Nat
  valid : TbId → Bool

def frame (s : State) : Frame := ⟨info s, s.nbTbs, s.l1Map, s.codeGenPtr, s.valid⟩

section Fields
variable {s : State} {f : Frame}

section
variable (h : frame s = f)
include h

theorem valid_of_frame : s.valid = f.valid := congrArg Frame.valid h

theorem info_of_frame : info s = f.info := congrArg Frame.info h

theorem nbTbs_of_frame : s.nbTbs = f.nbTbs := congrArg Frame.nbTbs h

theorem l1Map_of_frame : s.l1Map = f.l1Map := congrArg Frame.l1Map h

end

end Fields

section Views
variable (s : State) (t : TbId) (f : TranslationBlock → TranslationBlock)

theorem view_modifyTb {β : Type} (g : TranslationBlock → β) (hf : g (f (s.tbs t)) = g (s.tbs t)) (x : TbId) :
    g ((s.modifyTb t f).tbs x) = g (s.tbs x) := by
  by_cases hx : x = t
  · subst hx
    simpa [modifyTb] using hf
  · simp [modifyTb, update_of_ne hx]

theorem readHash_modifyTb (hf : (f (s.tbs t)).physHashNext = (s.tbs t).physHashNext) :
    readHash (s.modifyTb t f) = readHash s := by
  funext c
  cases c with
  | head h => rfl
  | next x => exact view_modifyTb s t f (·.physHashNext) hf x

theorem readPage_modifyTb (hf : (f (s.tbs t)).pageNext = (s.tbs t).pageNext) :
    readPage (s.modifyTb t f) = readPage s := by
  funext c
  cases c with
  | first p => rfl
  | next x n => exact congrFun (view_modifyTb s t f (·.pageNext) hf x) n

theorem readJmp_modifyTb (hf : (f (s.tbs t)).jmpNext = (s.tbs t).jmpNext)
    (hf' : (f (s.tbs t)).jmpFirst = (s.tbs t).jmpFirst) : readJmp (s.modifyTb t f) = readJmp s := by
  funext c
  cases c with
  | first x => exact view_modifyTb s t f (·.jmpFirst) hf' x
  | next x n => exact congrFun (view_modifyTb s t f (·.jmpNext) hf x) n

theorem jmpTarget_modifyTb (hf : (f (s.tbs t)).tbNext = (s.tbs t).tbNext) :
    jmpTarget (s.modifyTb t f) = jmpTarget s := by
  funext x
  exact view_modifyTb s t f (·.tbNext) hf x

section
variable (hf : (f (s.tbs t)).toInfo = (s.tbs t).toInfo)
include hf

theorem info_modifyTb : info (s.modifyTb t f) = info s := by
  funext x
  exact view_modifyTb s t f (·.toInfo) hf x

theorem frame_modifyTb : frame (s.modifyTb t f) = frame s := by
  show (⟨info (s.modifyTb t f), _, _, _, _⟩ : Frame) = ⟨info s, _, _, _, _⟩
  rw [info_modifyTb s t f hf]
  rfl

end

end Views

section Writes
variable (s : State) (v : Option TbId)

@[simp] theorem readHash_writeHash (c : HashCell) : readHash (writeHash s v c) = update (readHash s) c v := by
  funext x
  cases c <;> cases x <;> simp [readHash, writeHash, modifyTb, update_apply]
  split <;> simp_all

@[simp] theorem views_writeHash (c : HashCell) :
    frame (writeHash s v c) = frame s ∧ readPage (writeHash s v c) = readPage s ∧
      readJmp (writeHash s v c) = readJmp s ∧ jmpTarget (writeHash s v c) = jmpTarget s := by
  cases c with
  | head h => exact ⟨rfl, rfl, rfl, rfl⟩
  | next t =>
    unfold writeHash
    exact ⟨frame_modifyTb s t _ rfl, readPage_modifyTb s t _ rfl, readJmp_modifyTb s t _ rfl rfl,
      jmpTarget_modifyTb s t _ rfl⟩

variable (v : Option (TbId × Fin 2))

@[simp] theorem readPage_writePage (c : PageCell) : readPage (writePage s v c) = update (readPage s) c v := by
  funext x
  cases c <;> cases x <;>
    simp [readPage, writePage, modifyTb, modifyPage, update_apply] <;>
      (try split) <;> simp_all [update_apply]

@[simp] theorem views_writePage (c : PageCell) :
    frame (writePage s v c) = frame s ∧ readHash (writePage s v c) = readHash s ∧
      readJmp (writePage s v c) = readJmp s ∧ jmpTarget (writePage s v c) = jmpTarget s := by
  cases c with
  | first p => exact ⟨rfl, rfl, rfl, rfl⟩
  | next t n =>
    unfold writePage
    exact ⟨frame_modifyTb s t _ rfl, readHash_modifyTb s t _ rfl, readJmp_modifyTb s t _ rfl rfl,
      jmpTarget_modifyTb s t _ rfl⟩

@[simp] theorem readJmp_writeJmp (v : Option JmpLink) (c : JmpLink) :
    readJmp (writeJmp s v c) = update (readJmp s) c v := by
  funext x
  cases c <;> cases x <;>
    simp [readJmp, writeJmp, modifyTb, update_apply] <;>
      split <;> simp_all [update_apply]

@[simp] theorem views_writeJmp (v : Option JmpLink) (c : JmpLink) :
    frame (writeJmp s v c) = frame s ∧ readHash (writeJmp s v c) = readHash s ∧
      readPage (writeJmp s v c) = readPage s ∧ jmpTarget (writeJmp s v c) = jmpTarget s := by
  unfold writeJmp
  obtain ⟨t, n⟩ | ⟨t⟩ := c <;>
    exact ⟨frame_modifyTb s t _ rfl, readHash_modifyTb s t _ rfl, readPage_modifyTb s t _ rfl,
      jmpTarget_modifyTb s t _ rfl⟩

variable (t : TbId)

@[simp] theorem views_tbSetJmpTarget (n : Fin 2) (a : Nat) :
    frame (tbSetJmpTarget s t n a) = frame s ∧ readHash (tbSetJmpTarget s t n a) = readHash s ∧
      readPage (tbSetJmpTarget s t n a) = readPage s ∧ readJmp (tbSetJmpTarget s t n a) = readJmp s :=
  ⟨frame_modifyTb s t _ rfl, readHash_modifyTb s t _ rfl, readPage_modifyTb s t _ rfl, readJmp_modifyTb s t _ rfl rfl⟩

theorem jmpTarget_tbSetJmpTarget (n : Fin 2) (a : Nat) (x : TbId) (k : Fin 2) :
    jmpTarget (tbSetJmpTarget s t n a) x k = if x = t ∧ k = n then a else jmpTarget s x k := by
  by_cases hx : x = t
  · subst hx
    by_cases hk : k = n
    all_goals simp [jmpTarget, tbSetJmpTarget, modifyTb, hk]
  · simp [jmpTarget, tbSetJmpTarget, modifyTb, hx]

@[simp] theorem views_pageFindAlloc (p : Nat) :
    readHash (pageFindAlloc s p) = readHash s ∧ readPage (pageFindAlloc s p) = readPage s ∧
      readJmp (pageFindAlloc s p) = readJmp s ∧ jmpTarget (pageFindAlloc s p) = jmpTarget s :=
  ⟨rfl, rfl, rfl, rfl⟩

theorem views_modifyInfo (g : Info → Info) :
    readHash (s.modifyTb t fun b => { b with toInfo := g b.toInfo }) = readHash s ∧
      readPage (s.modifyTb t fun b => { b with toInfo := g b.toInfo }) = readPage s ∧
      readJmp (s.modifyTb t fun b => { b with toInfo := g b.toInfo }) = readJmp s ∧
      jmpTarget (s.modifyTb t fun b => { b with toInfo := g b.toInfo }) = jmpTarget s :=
  ⟨readHash_modifyTb s t _ rfl, readPage_modifyTb s t _ rfl, readJmp_modifyTb s t _ rfl rfl,
    jmpTarget_modifyTb s t _ rfl⟩

theorem views_modifyPage (p : Nat) (f : PageDesc → PageDesc) (hf : (f (s.pages p)).firstTb = (s.pages p).firstTb) :
    frame (s.modifyPage p f) = frame s ∧ readHash (s.modifyPage p f) = readHash s ∧
      readPage (s.modifyPage p f) = readPage s ∧ readJmp (s.modifyPage p f) = readJmp s ∧
      jmpTarget (s.modifyPage p f) = jmpTarget s := by
  refine ⟨rfl, rfl, ?_, rfl, rfl⟩
  funext c
  cases c with
  | next t n => rfl
  | first q =>
    by_cases hq : q = p
    · subst hq
      simpa [readPage, modifyPage] using hf
    · simp [readPage, modifyPage, update_of_ne hq]

@[simp] theorem views_bitmap (p : Nat) : frame (s.modifyPage p invalidatePageBitmap) = frame s ∧
      readHash (s.modifyPage p invalidatePageBitmap) = readHash s ∧
      readPage (s.modifyPage p invalidatePageBitmap) = readPage s ∧
      readJmp (s.modifyPage p invalidatePageBitmap) = readJmp s ∧
      jmpTarget (s.modifyPage p invalidatePageBitmap) = jmpTarget s :=
  views_modifyPage s p invalidatePageBitmap rfl

end Writes

end GemDroid.Tb
