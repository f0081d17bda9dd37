import GemDroid.Lib.Reach
import GemDroid.Lib.Fallible
import Mathlib.Data.List.Perm.Lattice
import Mathlib.Logic.Equiv.Basic

/-! The threads that are traced (`disas.c`, `gemdroid-tracer.c` and `hw/android/goldfish/tty.c`).

The ids of the traced threads are in `needed_tids`, each with a counter in `print_tids`.
`matchMeInPidTid` looks for one of two context ids and moves the one that it finds to the front;
it writes its first context there, whichever of the two it has found. Lines of `top` on the
console add threads. -/
namespace GemDroid.Trace
open Lib Function List Equiv

variable {context context1 v : Int} {n i : Nat} {a : Nat → Int}

/-! ### The model -/

/-- The program stops: `exit`, or a write behind the end of `allPidsChecked`. -/
inductive Stop where
  | exit
  | outOfBounds
  deriving DecidableEq, Repr

structure Tracker where
  cpuTracer : Bool
  neededPid : Int
  neededTids : Nat → Int
  printTids : Nat → Int
  neededTidLength : Nat
  armHelperTidNow : Int
  allPidsChecked : Nat → Int
  allPidsLength : Nat

open Tracker

def allPidsSize : Nat := 10000

/-- The first entry and entry `i` of an array change places. -/
def swapFirst (a : Nat → Int) (i : Nat) : Nat → Int :=
  Function.update (Function.update a i (a 0)) 0 (a i)

/-- The loop of `insertIntoAllPids` from entry `i` on: the array, the two flags, and whether it has
returned. -/
def scanAllPids (one two : Int) : Nat → Nat → Bool → Bool → (Nat → Int) → (Nat → Int) × Bool × Bool × Bool
  | 0, _, oneF, twoF, a => (a, oneF, twoF, false)
  | n + 1, i, oneF, twoF, a =>
    let oneF := oneF || one == a i
    let twoF := twoF || two == a i
    if oneF then
      if twoF then (swapFirst a i, oneF, twoF, true)
      else scanAllPids one two n (i + 1) oneF twoF (swapFirst a i)
    else scanAllPids one two n (i + 1) oneF twoF a

namespace Tracker

def addFirst (s : Tracker) (one : Int) : Except Stop Tracker :=
  if s.allPidsLength < allPidsSize then
    .ok { s with
      allPidsChecked := Function.update (Function.update s.allPidsChecked 0 one) s.allPidsLength (s.allPidsChecked 0)
      allPidsLength := s.allPidsLength + 1 }
  else .error .outOfBounds

def addLast (s : Tracker) (two : Int) : Except Stop Tracker :=
  if s.allPidsLength < allPidsSize then
    .ok { s with
      allPidsChecked := Function.update s.allPidsChecked s.allPidsLength two
      allPidsLength := s.allPidsLength + 1 }
  else .error .outOfBounds

/-- What `insertIntoAllPids` does behind its loop. -/
def addMissing (s : Tracker) (one two : Int) (oneF twoF : Bool) : Except Stop Tracker :=
  (if oneF then .ok s else s.addFirst one) >>= fun s =>
    if one ≠ two ∧ twoF = true then s.addLast two else .ok s

def insertIntoAllPids (s : Tracker) (one two : Int) : Except Stop Tracker :=
  match scanAllPids one two s.allPidsLength 0 false false s.allPidsChecked with
  | (a, _, _, true) => .ok { s with allPidsChecked := a }
  | (a, oneF, twoF, false) => addMissing { s with allPidsChecked := a } one two oneF twoF

/-- The loop of `matchMeInPidTid`: the first entry from `i` on that is one of the contexts. -/
def findTid (tids : Nat → Int) (context context1 : Int) : Nat → Nat → Option Nat
  | 0, _ => none
  | n + 1, i => if context = tids i ∨ tids i = context1 then some i else findTid tids context context1 n (i + 1)

def matchMeInPidTid (s : Tracker) (context context1 : Int) : Except Stop (Tracker × Nat) :=
  if s.cpuTracer = false then .ok (s, 0)
  else do
    let s ← s.insertIntoAllPids context context1
    if s.neededPid = 0 then .error .exit
    else if s.neededPid = context ∨ context1 = s.neededPid then .ok ({ s with armHelperTidNow := context }, 1)
    else
      match findTid s.neededTids context context1 s.neededTidLength 0 with
      | none => .ok (s, 0)
      | some i =>
        if context = 0 then .error .exit
        else
          .ok ({ s with
            neededTids := Function.update (Function.update s.neededTids 0 context) i (s.neededTids 0)
            printTids := swapFirst s.printTids i
            neededPid := context, armHelperTidNow := context }, i + 1)

/-- The number in a line of `top`: the characters 6 to 14, up to a space behind the first digit that
is not zero. -/
def lineTid (line : Nat → Int) : Nat → Nat → Int → Int
  | 0, _, tid => tid
  | n + 1, i, tid =>
    if line (6 + i) ≠ 0x20 then lineTid line n (i + 1) ((tid * 10 + (line (6 + i) - 0x30)).bmod (2 ^ 32))
    else if tid ≠ 0 then tid
    else lineTid line n (i + 1) tid

/-- A thread is added in front, and the one that was there is put at the end. -/
def addTid (s : Tracker) (tid : Int) : Except Stop Tracker :=
  if 0 < s.neededTidLength then
    if s.neededTidLength = 999 then .error .exit
    else
      .ok { s with
        neededTids := Function.update (Function.update s.neededTids 0 tid) s.neededTidLength (s.neededTids 0)
        printTids := Function.update (Function.update s.printTids 0 0) s.neededTidLength (s.printTids 0)
        neededTidLength := s.neededTidLength + 1 }
  else
    .ok { s with
      neededTids := Function.update s.neededTids s.neededTidLength tid
      neededTidLength := s.neededTidLength + 1 }

def oldPidAccumulatorFromTopCommand (s : Tracker) (line : Nat → Int) : Except Stop Tracker :=
  if line 1 ≠ 0x20 then .ok s
  else
    let tid := lineTid line 9 0 0
    let s := { s with neededPid := tid }
    if tid = 0 then .error .exit
    else if (findTid s.neededTids tid tid s.neededTidLength 0).isSome then .ok s
    else s.addTid tid

def init (cpuTracer : Bool) : Tracker := ⟨cpuTracer, -1, fun _ => 0, fun _ => 0, 0, -1, fun _ => 0, 0⟩

end Tracker

/-! ### Searches -/

section Search
variable {tids : Nat → Int} {j k : Nat}

theorem findTid_none (h : findTid tids context context1 n i = none) (hj : i ≤ j) (hjn : j < i + n) :
    tids j ≠ context ∧ tids j ≠ context1 := by
  induction n generalizing i with
  | zero => omega
  | succ n ih =>
    rw [findTid] at h
    split at h
    · cases h
    next hne =>
      by_cases hij : j = i
      · subst hij
        exact ⟨fun heq => hne (Or.inl heq.symm), fun heq => hne (Or.inr heq)⟩
      · exact ih h (by omega) (by omega)

theorem findTid_some (h : findTid tids context context1 n i = some k) :
    i ≤ k ∧ k < i + n ∧ (tids k = context ∨ tids k = context1) := by
  induction n generalizing i with
  | zero => cases h
  | succ n ih =>
    rw [findTid] at h
    split at h
    next heq =>
      cases h
      exact ⟨Nat.le_refl _, by omega, heq.imp_left Eq.symm⟩
    · have := ih h
      exact ⟨by omega, by omega, this.2.2⟩

end Search

/-! ### The list of all contexts -/

def Among (a : Nat → Int) (i n : Nat) (v : Int) : Prop := ∃ j, i ≤ j ∧ j < i + n ∧ a j = v

theorem among_succ : Among a i (n + 1) v ↔ v = a i ∨ Among a (i + 1) n v := by
  constructor
  · intro h
    obtain ⟨j, hij, hjn, hj⟩ := h
    by_cases heq : j = i
    · exact Or.inl (heq ▸ hj.symm)
    · exact Or.inr ⟨j, by omega, by omega, hj⟩
  · intro h
    obtain heq | ⟨j, hij, hjn, hj⟩ := h
    · exact ⟨i, Nat.le_refl _, by omega, heq.symm⟩
    · exact ⟨j, by omega, by omega, hj⟩

theorem among_swapFirst : Among (swapFirst a i) (i + 1) n v ↔ Among a (i + 1) n v := by
  have hsame : ∀ j, i + 1 ≤ j → swapFirst a i j = a j := by
    intro j hj
    rw [swapFirst, update_of_ne (by omega), update_of_ne (by omega)]
  constructor
  · intro h
    obtain ⟨j, hij, hjn, hj⟩ := h
    exact ⟨j, hij, hjn, (hsame j hij).symm.trans hj⟩
  · intro h
    obtain ⟨j, hij, hjn, hj⟩ := h
    exact ⟨j, hij, hjn, (hsame j hij).trans hj⟩

/-- The flags say which of the two contexts are there. The loop returns only if the first one is. -/
theorem scanAllPids_spec (one two : Int) (n i : Nat) (oneF twoF : Bool) (a : Nat → Int)
    (hnot : ¬ (oneF = true ∧ twoF = true)) : match scanAllPids one two n i oneF twoF a with
    | (_, _, _, true) => oneF = true ∨ Among a i n one
    | (_, oneF', twoF', false) => (oneF' = true ↔ oneF = true ∨ Among a i n one) ∧
        (twoF' = true ↔ twoF = true ∨ Among a i n two) ∧ ¬ (oneF' = true ∧ twoF' = true) := by
  induction n generalizing i oneF twoF a with
  | zero =>
    have hnone (v : Int) : ¬ Among a i 0 v := by
      intro h
      obtain ⟨j, _, _, _⟩ := h
      omega
    simp [scanAllPids, hnone] at hnot ⊢
    exact hnot
  | succ n ih =>
    have hone : (oneF || one == a i) = true ↔ oneF = true ∨ one = a i := by simp
    have htwo : (twoF || two == a i) = true ↔ twoF = true ∨ two = a i := by simp
    simp only [among_succ, ← or_assoc, ← hone, ← htwo, scanAllPids]
    generalize (oneF || one == a i) = o
    generalize (twoF || two == a i) = w
    cases o with
    | false =>
      have := ih (i + 1) false w a (by simp)
      simpa using this
    | true =>
      cases w with
      | true => simp
      | false =>
        have := ih (i + 1) true false (swapFirst a i) (by simp)
        simpa [among_swapFirst] using this

namespace Tracker
variable {s s' : Tracker} {one two : Int}

def Checked (s : Tracker) (c : Int) : Prop := Among s.allPidsChecked 0 s.allPidsLength c

/-- There is room for what `insertIntoAllPids` adds: the first context if it is not in the list, and
then the second if it is. -/
def Room (s : Tracker) (one two : Int) : Prop :=
  s.Checked one ∨ s.allPidsLength < allPidsSize ∧ (one ≠ two → s.Checked two → s.allPidsLength + 1 < allPidsSize)

/-- Only the list of contexts differs. -/
def SameTracking (s s' : Tracker) : Prop :=
  ∃ a n, s' = { s with allPidsChecked := a, allPidsLength := n }

/-- `insertIntoAllPids` returns exactly if there is room, and changes nothing else. -/
theorem insertIntoAllPids_cases (s : Tracker) (one two : Int) :
    (s.Room one two ∧ ∃ s', s.insertIntoAllPids one two = .ok s' ∧ SameTracking s s') ∨
    (¬ s.Room one two ∧ s.insertIntoAllPids one two = .error .outOfBounds) := by
  have hspec := scanAllPids_spec one two s.allPidsLength 0 false false s.allPidsChecked (by simp)
  rw [insertIntoAllPids]
  split at hspec
  next a oneF twoF _ =>
    exact Or.inl ⟨Or.inl (hspec.resolve_left Bool.false_ne_true), _, rfl, a, s.allPidsLength, rfl⟩
  next a oneF twoF _ =>
    obtain ⟨hone, htwo, hnot⟩ := hspec
    simp only [Bool.false_eq_true, false_or] at hone htwo
    cases oneF with
    | true =>
      obtain rfl : twoF = false := by simpa using hnot
      exact Or.inl ⟨Or.inl (hone.1 rfl), _, by simp [addMissing, ok_bind], a, s.allPidsLength, rfl⟩
    | false =>
      have hunchecked : ¬ s.Checked one := fun hc => Bool.false_ne_true (hone.2 hc)
      rw [Room, or_iff_right hunchecked]
      simp only [addMissing, Bool.false_eq_true, if_false, addFirst]
      by_cases hroom : s.allPidsLength < allPidsSize
      · rw [if_pos hroom, ok_bind]
        by_cases hsecond : one ≠ two ∧ twoF = true
        · have hchecked : s.Checked two := htwo.1 hsecond.2
          rw [if_pos hsecond, addLast]
          by_cases hmore : s.allPidsLength + 1 < allPidsSize
          · rw [if_pos hmore]
            exact Or.inl ⟨⟨hroom, fun _ _ => hmore⟩, _, rfl, _, _, rfl⟩
          · rw [if_neg hmore]
            exact Or.inr ⟨fun h => hmore (h.2 hsecond.1 hchecked), rfl⟩
        · rw [if_neg hsecond]
          exact Or.inl ⟨⟨hroom, fun hne hc => absurd ⟨hne, htwo.2 hc⟩ hsecond⟩, _, rfl, _, _, rfl⟩
      · rw [if_neg hroom, error_bind]
        exact Or.inr ⟨fun h => hroom h.1, rfl⟩

/-! ### Matching -/

def tracked (s : Tracker) : List (Int × Int) :=
  (List.range s.neededTidLength).map fun i => (s.neededTids i, s.printTids i)

def Traced (s : Tracker) (tid : Int) : Prop := Among s.neededTids 0 s.neededTidLength tid

variable {tid : Int}

theorem mem_tracked_fst : tid ∈ s.tracked.map Prod.fst ↔ s.Traced tid := by
  simp [tracked, Traced, Among, Function.comp_def]

/-- The globals while tracing is on: no thread twice, and no id is 0. -/
structure Wf (s : Tracker) : Prop where
  tracing : s.cpuTracer = true
  pid : s.neededPid ≠ 0
  tids : ∀ i < s.neededTidLength, s.neededTids i ≠ 0
  distinct : ∀ i < s.neededTidLength, ∀ j < s.neededTidLength, s.neededTids i = s.neededTids j → i = j

/-- A call returns, says whether one of the contexts is traced, and only moves threads around with
their counters. -/
def MatchesRight (s : Tracker) (context context1 : Int) : Prop :=
  ∃ s' r, s.matchMeInPidTid context context1 = .ok (s', r) ∧
    (r ≠ 0 ↔ s.neededPid = context ∨ s.neededPid = context1 ∨ s.Traced context ∨ s.Traced context1) ∧
    s'.tracked.Perm s.tracked

/-- The call finds room in the list of contexts; and it finds the process, or the first thread that
it finds has the id of the first context, or is the first of all, and the first context is not 0. -/
def KeepsThreads (s : Tracker) (context context1 : Int) : Prop :=
  s.Room context context1 ∧ (s.neededPid = context ∨ s.neededPid = context1 ∨
    ∀ i, findTid s.neededTids context context1 s.neededTidLength 0 = some i →
      s.neededTids i = context ∨ i = 0 ∧ context ≠ 0)

theorem perm_swap {α : Type} (hi : i < n) (f : Nat → α) :
    ((List.range n).map fun j => f (swap 0 i j)).Perm ((List.range n).map f) := by
  have hlt : ∀ j < n, swap 0 i j < n := by
    intro j hj
    rw [swap_apply_def]
    split
    · exact hi
    · split <;> omega
  have hrange : ((List.range n).map (swap 0 i)).Perm (List.range n) := by
    rw [perm_ext_iff_of_nodup (nodup_range.map (Equiv.injective _)) nodup_range]
    intro j
    rw [mem_map, mem_range]
    constructor
    · rintro ⟨k, hk, rfl⟩
      exact hlt k (mem_range.1 hk)
    · exact fun hj => ⟨swap 0 i j, mem_range.2 (hlt j hj), swap_apply_self 0 i j⟩
  have := hrange.map f
  rwa [map_map] at this

def moveFirst (s : Tracker) (i : Nat) (context : Int) : Tracker :=
  { s with
    neededTids := Function.update (Function.update s.neededTids 0 context) i (s.neededTids 0)
    printTids := swapFirst s.printTids i
    neededPid := context, armHelperTidNow := context }

theorem match_cases (hwf : s.Wf) (hroom : s.Room context context1) : ∃ s₁, SameTracking s s₁ ∧
      (((s.neededPid = context ∨ s.neededPid = context1) ∧
        s.matchMeInPidTid context context1 = .ok ({ s₁ with armHelperTidNow := context }, 1)) ∨
      (¬ (s.neededPid = context ∨ s.neededPid = context1) ∧
        findTid s.neededTids context context1 s.neededTidLength 0 = none ∧
        s.matchMeInPidTid context context1 = .ok (s₁, 0)) ∨
      (¬ (s.neededPid = context ∨ s.neededPid = context1) ∧
        ∃ i, findTid s.neededTids context context1 s.neededTidLength 0 = some i ∧
        s.matchMeInPidTid context context1 =
          if context = 0 then .error .exit else .ok (s₁.moveFirst i context, i + 1))) := by
  obtain ⟨-, s₁, hins, a, n, rfl⟩ | ⟨hnot, -⟩ := insertIntoAllPids_cases s context context1
  · refine ⟨_, ⟨a, n, rfl⟩, ?_⟩
    have htracing : ¬ (s.cpuTracer = false) := by simp [hwf.tracing]
    rw [matchMeInPidTid, if_neg htracing, hins, ok_bind]
    rw [if_neg hwf.pid]
    by_cases hpid : s.neededPid = context ∨ s.neededPid = context1
    · exact Or.inl ⟨hpid, if_pos (hpid.imp_right Eq.symm)⟩
    have hpid' : ¬ (s.neededPid = context ∨ context1 = s.neededPid) := fun h => hpid (h.imp_right Eq.symm)
    rw [if_neg hpid']
    cases hfind : findTid s.neededTids context context1 s.neededTidLength 0 with
    | none => exact Or.inr (Or.inl ⟨hpid, rfl, rfl⟩)
    | some i => exact Or.inr (Or.inr ⟨hpid, i, rfl, rfl⟩)
  · exact absurd hroom hnot

theorem tracked_moveFirst (hi : i < s.neededTidLength)
    (hcontext : s.neededTids i = context ∨ i = 0) : (s.moveFirst i context).tracked.Perm s.tracked := by
  have hswap : (s.moveFirst i context).tracked = (List.range s.neededTidLength).map fun j =>
        (fun k => (s.neededTids k, s.printTids k)) (swap 0 i j) := by
    refine map_congr_left fun j _ => ?_
    simp only [moveFirst, swapFirst, update_apply, swap_apply_def]
    by_cases hji : j = i
    · subst hji
      by_cases hj : j = 0
      · simp [hj]
      · simp [hj]
    · by_cases hj : j = 0
      · subst hj
        simp [hji, hcontext.resolve_right (fun h => hji h.symm)]
      · simp [hji, hj]
  rw [hswap]
  exact perm_swap hi fun k => (s.neededTids k, s.printTids k)

/-- If another id is written to the front, the thread that was found is lost. -/
theorem not_traced_moveFirst (hwf : s.Wf) (hi : i < s.neededTidLength) (hpos : i ≠ 0)
    (hcontext : s.neededTids i ≠ context) : ¬ (s.moveFirst i context).Traced (s.neededTids i) := by
  intro h
  obtain ⟨j, -, hj, heq⟩ := h
  simp only [moveFirst, update_apply, Nat.zero_add] at heq hj
  split at heq
  · exact hpos (hwf.distinct 0 (by omega) i hi heq).symm
  next hji =>
    split at heq
    · exact hcontext heq.symm
    · exact hji (hwf.distinct j hj i hi heq)

/-- A call does what it should exactly if it finds room, and the thread it finds has the id of the
first context or is in front already. -/
theorem matchesRight_iff (hwf : s.Wf) : s.MatchesRight context context1 ↔ s.KeepsThreads context context1 := by
  constructor
  · intro h
    obtain ⟨s', r, hok, -, hperm⟩ := h
    have hroom : s.Room context context1 := by
      by_contra hroom
      obtain ⟨hr, -⟩ | ⟨-, hins⟩ := insertIntoAllPids_cases s context context1
      · exact hroom hr
      · rw [matchMeInPidTid, if_neg (by simp [hwf.tracing]), hins, error_bind] at hok
        cases hok
    refine ⟨hroom, ?_⟩
    obtain ⟨s₁, hsame, ⟨hpid, -⟩ | ⟨-, hfind, -⟩ | ⟨-, i, hfind, hmatch⟩⟩ := match_cases hwf hroom
    · exact hpid.imp_right Or.inl
    · exact Or.inr (Or.inr fun i hi => by rw [hfind] at hi; cases hi)
    · refine Or.inr (Or.inr fun j hj => ?_)
      obtain rfl : i = j := by
        rw [hfind] at hj
        exact Option.some.inj hj
      rw [hok] at hmatch
      split at hmatch
      · cases hmatch
      next hzero =>
        by_contra hneither
        have hcontext : s.neededTids i ≠ context := fun heq => hneither (Or.inl heq)
        have hpos : i ≠ 0 := fun heq => hneither (Or.inr ⟨heq, hzero⟩)
        obtain ⟨-, hi, -⟩ := findTid_some hfind
        rw [Nat.zero_add] at hi
        obtain ⟨a, n, rfl⟩ := hsame
        cases hmatch
        refine not_traced_moveFirst hwf hi hpos hcontext ?_
        have hin : s.neededTids i ∈ s.tracked.map Prod.fst :=
          mem_tracked_fst.2 ⟨i, Nat.zero_le _, by omega, rfl⟩
        exact mem_tracked_fst.1 ((hperm.map Prod.fst).mem_iff.2 hin)
  · intro h
    obtain ⟨hroom, hkeep⟩ := h
    obtain ⟨s₁, ⟨a, n, rfl⟩, ⟨hpid, hmatch⟩ | ⟨hpid, hfind, hmatch⟩ | ⟨hpid, i, hfind, hmatch⟩⟩ := match_cases hwf hroom
    · refine ⟨_, _, hmatch, ?_, List.Perm.refl _⟩
      exact ⟨fun _ => hpid.imp_right Or.inl, fun _ => Nat.one_ne_zero⟩
    · refine ⟨_, _, hmatch, ?_, List.Perm.refl _⟩
      refine ⟨fun hne => absurd rfl hne, fun hany => ?_⟩
      exfalso
      obtain h₁ | h₁ | ⟨j, hj, hjn, heq⟩ | ⟨j, hj, hjn, heq⟩ := hany
      · exact hpid (Or.inl h₁)
      · exact hpid (Or.inr h₁)
      · exact (findTid_none hfind hj hjn).1 heq
      · exact (findTid_none hfind hj hjn).2 heq
    · obtain ⟨hi₀, hi, hfound⟩ := findTid_some hfind
      have hcase := (hkeep.resolve_left fun h => hpid (Or.inl h)).resolve_left (fun h => hpid (Or.inr h)) i hfind
      have hzero : context ≠ 0 := by
        obtain heq | hfirst := hcase
        · rw [← heq]
          exact hwf.tids i (by omega)
        · exact hfirst.2
      rw [if_neg hzero] at hmatch
      refine ⟨_, _, hmatch, ⟨fun _ => ?_, fun _ => Nat.succ_ne_zero i⟩, ?_⟩
      · exact Or.inr (Or.inr (hfound.imp (fun h => ⟨i, hi₀, hi, h⟩) (fun h => ⟨i, hi₀, hi, h⟩)))
      · exact tracked_moveFirst (s := { s with allPidsChecked := a, allPidsLength := n }) (by simpa using hi)
          (hcase.imp_right And.left)

/-! ### Runs -/

def tids (s : Tracker) : List Int := (List.range s.neededTidLength).map s.neededTids

theorem map_fst_tracked (s : Tracker) : s.tracked.map Prod.fst = s.tids := by
  rw [tracked, map_map]
  rfl

theorem Wf.nodup (hwf : s.Wf) : s.tids.Nodup :=
  List.Nodup.map_on (fun i hi j hj heq => hwf.distinct i (mem_range.1 hi) j (mem_range.1 hj) heq) nodup_range

theorem mem_tids : tid ∈ s.tids ↔ s.Traced tid := by rw [← map_fst_tracked, mem_tracked_fst]

theorem wf_of_tids (htracing : s.cpuTracer = true) (hpid : s.neededPid ≠ 0) (hnodup : s.tids.Nodup)
    (hzero : (0 : Int) ∉ s.tids) : s.Wf where
  tracing := htracing
  pid := hpid
  tids := fun _ hi heq => hzero (heq ▸ mem_map_of_mem (mem_range.2 hi))
  distinct := fun _ hi _ hj heq => inj_on_of_nodup_map hnodup (mem_range.2 hi) (mem_range.2 hj) heq

theorem Wf.zero_notMem (hwf : s.Wf) : (0 : Int) ∉ s.tids := by
  intro h
  obtain ⟨i, hi, heq⟩ := mem_map.1 h
  exact hwf.tids i (mem_range.1 hi) heq

theorem Wf.call {r : Nat} (hwf : s.Wf) (hkeep : s.KeepsThreads context context1)
    (hok : s.matchMeInPidTid context context1 = .ok (s', r)) : s'.Wf ∧ s'.tids.Perm s.tids := by
  obtain ⟨s'', r'', hok'', -, hperm⟩ := (matchesRight_iff hwf).2 hkeep
  obtain ⟨rfl, rfl⟩ : s'' = s' ∧ r'' = r := by
    rw [hok] at hok''
    cases hok''
    exact ⟨rfl, rfl⟩
  have htids : s''.tids.Perm s.tids := by
    rw [← map_fst_tracked, ← map_fst_tracked]
    exact hperm.map Prod.fst
  have hglobals : s''.cpuTracer = true ∧ s''.neededPid ≠ 0 := by
    obtain ⟨s₁, ⟨a, n, rfl⟩, ⟨-, hmatch⟩ | ⟨-, -, hmatch⟩ | ⟨-, _, -, hmatch⟩⟩ := match_cases hwf hkeep.1
    · rw [hok] at hmatch
      cases hmatch
      exact ⟨hwf.tracing, hwf.pid⟩
    · rw [hok] at hmatch
      cases hmatch
      exact ⟨hwf.tracing, hwf.pid⟩
    · rw [hok] at hmatch
      split at hmatch
      · cases hmatch
      next hzero =>
        cases hmatch
        exact ⟨hwf.tracing, hzero⟩
  refine ⟨wf_of_tids hglobals.1 hglobals.2 (htids.nodup_iff.2 hwf.nodup) ?_, htids⟩
  rw [htids.mem_iff]
  exact hwf.zero_notMem

theorem perm_addFirst (f : Nat → Int) (n : Nat) (x : Int) :
    ((List.range (n + 2)).map (update (update f 0 x) (n + 1) (f 0))).Perm (x :: (List.range (n + 1)).map f) := by
  have hkeep : ((List.range n).map fun i => update (update f 0 x) (n + 1) (f 0) (i + 1)) =
      (List.range n).map fun i => f (i + 1) := by
    refine map_congr_left fun i hi => ?_
    have := mem_range.1 hi
    rw [update_of_ne (by omega), update_of_ne (by omega)]
  rw [range_succ, range_succ_eq_map]
  simp only [map_append, map_cons, map_map, map_nil, Function.comp_def, Nat.succ_eq_add_one, hkeep, update_self,
    update_of_ne (Nat.succ_ne_zero n).symm, cons_append]
  exact (perm_append_singleton _ _).cons x

theorem tids_addTid (hok : s.addTid tid = .ok s') :
    s'.tids.Perm (tid :: s.tids) ∧ s'.cpuTracer = s.cpuTracer ∧ s'.neededPid = s.neededPid := by
  rw [addTid] at hok
  split at hok
  next hpos =>
    split at hok
    · cases hok
    cases hok
    refine ⟨?_, rfl, rfl⟩
    obtain ⟨n, hn⟩ : ∃ n, s.neededTidLength = n + 1 := ⟨s.neededTidLength - 1, by omega⟩
    simp only [tids, hn]
    exact perm_addFirst s.neededTids n tid
  next hzero =>
    cases hok
    refine ⟨?_, rfl, rfl⟩
    have hlen : s.neededTidLength = 0 := by omega
    simp [tids, hlen]

end Tracker

/-- A call of `matchMeInPidTid`, or a line on the console. -/
inductive Event where
  | call (context context1 : Int)
  | line (line : Nat → Int)

/-- The globals, and the threads that lines have added. -/
structure History where
  tracker : Tracker
  added : List Int

variable {h h' : History}

def Happens (h : History) : Event → History → Prop
  | .call context context1, h' =>
    ∃ r, h.tracker.matchMeInPidTid context context1 = .ok (h'.tracker, r) ∧ h'.added = h.added
  | .line line, h' =>
    h.tracker.oldPidAccumulatorFromTopCommand line = .ok h'.tracker ∧
      h'.added = if line 1 = 0x20 then Tracker.lineTid line 9 0 0 :: h.added else h.added

def Event.Keeps (h : History) : Event → Prop
  | .call context context1 => h.tracker.KeepsThreads context context1
  | .line _ => True

namespace Tracker

structure Tracks (h : History) : Prop where
  wf : h.tracker.Wf
  iff : ∀ tid, h.tracker.Traced tid ↔ tid ∈ h.added

theorem Tracks.line {line : Nat → Int} (ht : Tracks h) (hstep : Happens h (.line line) h') : Tracks h' := by
  obtain ⟨s', added'⟩ := h'
  obtain ⟨hok, hadded⟩ := hstep
  subst hadded
  rw [oldPidAccumulatorFromTopCommand] at hok
  by_cases hspace : line 1 = 0x20
  · rw [if_neg (not_not.2 hspace)] at hok
    rw [if_pos hspace]
    generalize lineTid line 9 0 0 = tid at hok ⊢
    dsimp only at hok
    split at hok
    · cases hok
    next hzero =>
      split at hok
      next hfound =>
        -- the thread is traced already
        obtain ⟨i, hi⟩ := Option.isSome_iff_exists.1 hfound
        obtain ⟨hi₀, hin, heq⟩ := findTid_some hi
        have htraced : h.tracker.Traced tid := ⟨i, hi₀, hin, heq.elim id id⟩
        cases hok
        refine ⟨wf_of_tids ht.wf.tracing hzero ht.wf.nodup ht.wf.zero_notMem, fun t => ?_⟩
        rw [mem_cons, ← ht.iff t]
        refine ⟨Or.inr, fun h => h.elim (fun heq => ?_) id⟩
        exact heq ▸ htraced
      next hnew =>
        have hnone : findTid h.tracker.neededTids tid tid h.tracker.neededTidLength 0 = none := by simpa using hnew
        have hmem : tid ∉ h.tracker.tids := by
          intro hin
          obtain ⟨i, hi₀, hin, heq⟩ := mem_tids.1 hin
          exact (findTid_none hnone hi₀ hin).1 heq
        obtain ⟨hperm, htracing, hpid⟩ := tids_addTid hok
        have hperm' : s'.tids.Perm (tid :: h.tracker.tids) := hperm
        refine ⟨wf_of_tids (htracing.trans ht.wf.tracing) (by rw [hpid]; exact hzero) ?_ ?_, fun t => ?_⟩
        · exact hperm'.nodup_iff.2 (nodup_cons.2 ⟨hmem, ht.wf.nodup⟩)
        · rw [hperm'.mem_iff, mem_cons, not_or]
          exact ⟨fun h => hzero h.symm, ht.wf.zero_notMem⟩
        · show s'.Traced t ↔ _
          rw [← mem_tids, hperm'.mem_iff, mem_cons, mem_cons, mem_tids, ht.iff]
  · rw [if_pos hspace] at hok
    rw [if_neg hspace]
    cases hok
    exact ⟨ht.wf, ht.iff⟩

theorem Tracks.call (ht : Tracks h)
    (hkeep : h.tracker.KeepsThreads context context1) (hstep : Happens h (.call context context1) h') : Tracks h' := by
  obtain ⟨r, hok, hadded⟩ := hstep
  obtain ⟨hwf, hperm⟩ := ht.wf.call hkeep hok
  refine ⟨hwf, fun t => ?_⟩
  rw [hadded, ← mem_tids, hperm.mem_iff, mem_tids, ht.iff]

theorem tracks_init : Tracks ⟨init true, []⟩ := by
  refine ⟨wf_of_tids rfl (by decide) (by simp [tids, init]) (by simp [tids, init]), ?_⟩
  intro t
  rw [← mem_tids]
  simp [tids, init]

end Tracker

/-- A step whose call, if it is one, keeps the threads. -/
def HappensWell (h : History) (e : Event) (h' : History) : Prop := Event.Keeps h e ∧ Happens h e h'

/-- In every state of a run of calls that keep the threads and of lines on the console, the threads
that are traced are those that were there or that lines have added; and a next call finds one of its
contexts and only moves threads exactly if it finds room and the thread that it finds has the id of
its first context or is in front. The run may begin anywhere. -/
theorem threads_tracked (h : History) (hrun : Reach Tracker.Tracks HappensWell h) :
    (∀ tid, h.tracker.Traced tid ↔ tid ∈ h.added) ∧ ∀ context context1,
      h.tracker.MatchesRight context context1 ↔ h.tracker.KeepsThreads context context1 := by
  have htracks : Tracker.Tracks h := by
    refine hrun.invariant (fun _ hstart => hstart) ?_
    intro h e h' ht hstep
    cases e with
    | call context context1 => exact ht.call hstep.1 hstep.2
    | line line => exact ht.line hstep.2
  exact ⟨htracks.iff, fun _ _ => matchesRight_iff htracks.wf⟩

def topLine (digit : Int) : Nat → Int := fun i => if i = 6 then digit else 0x20

def twoThreads : Tracker := { Tracker.init true with
  neededPid := 5
  neededTids := Function.update (Function.update (Function.update (fun _ => 0) 0 6) 0 5) 1 6
  printTids := Function.update (Function.update (fun _ => 0) 0 0) 1 0
  neededTidLength := 2 }

def oneThread : Tracker := { Tracker.init true with
  neededPid := 6, neededTids := Function.update (fun _ => 0) 0 6, neededTidLength := 1 }

theorem happens_six : Happens ⟨init true, []⟩ (.line (topLine 0x36)) ⟨oneThread, [6]⟩ := ⟨rfl, rfl⟩

theorem happens_five : Happens ⟨oneThread, [6]⟩ (.line (topLine 0x35)) ⟨twoThreads, [5, 6]⟩ := ⟨rfl, rfl⟩

theorem twoThreads_wf : twoThreads.Wf :=
  wf_of_tids rfl (by decide) (by decide) (by decide)

theorem twoThreads_keeps : twoThreads.KeepsThreads 6 9 := by
  refine ⟨Or.inr ⟨by decide, ?_⟩, Or.inr (Or.inr ?_)⟩
  · intro _ _
    decide
  · intro i hi
    obtain rfl : 1 = i := Option.some.inj hi
    exact Or.inl rfl

/-- Two lines add a thread each, and a call moves the second to the front. -/
theorem twoThreads_tracked : ∃ s r, twoThreads.matchMeInPidTid 6 9 = .ok (s, r) ∧ ∀ tid, s.Traced tid ↔ tid ∈ [5, 6] := by
  have hlines : Reach Tracker.Tracks HappensWell ⟨twoThreads, [5, 6]⟩ :=
    .step (a := .line (topLine 0x35)) (.step (a := .line (topLine 0x36)) (.start tracks_init) ⟨trivial, happens_six⟩)
      ⟨trivial, happens_five⟩
  obtain ⟨s, r, hok, -⟩ := ((threads_tracked _ hlines).2 6 9).2 twoThreads_keeps
  have hrun : Reach Tracker.Tracks HappensWell ⟨s, [5, 6]⟩ :=
    .step (a := .call 6 9) hlines ⟨twoThreads_keeps, r, hok, rfl⟩
  exact ⟨s, r, hok, (threads_tracked _ hrun).1⟩

/-- The thread 6 is found by the second context, and the first one, 7, is written over it. -/
theorem thread_lost : Reach (· = ⟨init true, []⟩) Happens ⟨twoThreads, [5, 6]⟩ ∧ twoThreads.Wf ∧
      ¬ twoThreads.MatchesRight 7 6 := by
  refine ⟨.step (.step (.start rfl) happens_six) happens_five, twoThreads_wf, ?_⟩
  intro hright
  obtain ⟨-, hpid | hpid | hfirst⟩ := (matchesRight_iff twoThreads_wf).1 hright
  · exact absurd hpid (by decide)
  · exact absurd hpid (by decide)
  · exact absurd (hfirst 1 rfl) (by decide)

end GemDroid.Trace
