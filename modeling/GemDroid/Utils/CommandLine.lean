import Mathlib.Data.List.Basic

/-! Quoting for command lines (`android/base/system/Win32Utils.cpp`). -/
namespace GemDroid.Utils.CommandLine
open List

abbrev Str := List UInt8

abbrev backslash : UInt8 := 0x5C
abbrev quote : UInt8 := 0x22
abbrev space : UInt8 := 0x20

/-- The characters that `strcspn` looks for. -/
def problematic : Str := [space, 0x09, 0x0B, 0x0A, quote]

/-- The loop of `quoteCommandLine`, with `n` backslashes to be written. -/
def quoteLoop (n : Nat) : Str → Str
  | [] => replicate (2 * n) backslash
  | c :: cs =>
    if c = backslash then quoteLoop (n + 1) cs
    else if c = quote then replicate (2 * n) backslash ++ backslash :: quote :: quoteLoop 0 cs
    else replicate n backslash ++ c :: quoteLoop 0 cs

def quoteCommandLine (s : Str) : Str :=
  if ∃ c ∈ s, c ∈ problematic then quote :: (quoteLoop 0 s ++ [quote]) else s

/-- The arguments of a command line by the rules of the C runtime. `arg` is what has been read
of one, without the `n` backslashes read last. -/
def splitFrom (quoted : Bool) (n : Nat) (arg : Option Str) : Str → List Str
  | [] => (arg.map (· ++ replicate n backslash)).toList
  | c :: cs =>
    if c = backslash then splitFrom quoted (n + 1) (some (arg.getD [])) cs
    else if c = quote then
      let read := arg.getD [] ++ replicate (n / 2) backslash
      if n % 2 = 0 then splitFrom (!quoted) 0 (some read) cs else splitFrom quoted 0 (some (read ++ [quote])) cs
    else if quoted = false ∧ (c = space ∨ c = 0x09) then
      (arg.map (· ++ replicate n backslash)).toList ++ splitFrom false 0 none cs
    else splitFrom quoted 0 (some (arg.getD [] ++ replicate n backslash ++ [c])) cs

def split : Str → List Str := splitFrom false 0 none

variable {q : Bool} {n m : Nat} {c : UInt8} {arg s rest : Str} {others : List Str}

def Ends (rest : Str) (others : List Str) : Prop :=
  rest = [] ∧ others = [] ∨ ∃ line, rest = space :: line ∧ others = split line

theorem splitFrom_ends (h : Ends rest others) :
    splitFrom false n (some arg) rest = (arg ++ replicate n backslash) :: others := by
  obtain ⟨rfl, rfl⟩ | ⟨line, rfl, rfl⟩ := h
  · rfl
  · rw [splitFrom, if_neg (by decide), if_neg (by decide), if_pos (by simp)]
    rfl

theorem splitFrom_backslashes : splitFrom q n (some arg) (replicate m backslash ++ rest) =
    splitFrom q (n + m) (some arg) rest := by
  induction m generalizing n with
  | zero => rfl
  | succ m ih =>
    rw [replicate_succ, cons_append, splitFrom, if_pos rfl, Option.getD_some, ih, Nat.add_right_comm]
    rfl

theorem splitFrom_plain (hs : ∀ c ∈ s, c ∉ problematic) (h : Ends rest others) {arg : Option Str}
    (hne : arg = none → s ≠ []) :
    splitFrom false n arg (s ++ rest) = (arg.getD [] ++ replicate n backslash ++ s) :: others := by
  induction s generalizing n arg with
  | nil =>
    obtain ⟨arg, rfl⟩ := Option.ne_none_iff_exists'.mp fun hnone => hne hnone rfl
    exact (splitFrom_ends h).trans (by simp)
  | cons c s ih =>
    obtain ⟨hc, hs⟩ := forall_mem_cons.mp hs
    simp only [problematic, mem_cons, not_or] at hc
    have hblank : ¬(false = false ∧ (c = space ∨ c = 0x09)) := fun hblank => hblank.2.elim hc.1 hc.2.1
    rw [cons_append, splitFrom, if_neg hc.2.2.2.2.1, if_neg hblank]
    split
    · rename_i hslash
      rw [ih hs (by simp), hslash]
      simp [replicate_succ']
    · rw [ih hs (by simp)]
      simp

theorem splitFrom_quoteLoop (h : Ends rest others) :
    splitFrom true 0 (some arg) (quoteLoop n s ++ quote :: rest) = (arg ++ replicate n backslash ++ s) :: others := by
  induction s generalizing n arg with
  | nil =>
    rw [quoteLoop, splitFrom_backslashes, splitFrom, if_neg (by decide), if_pos rfl, if_pos (by omega),
      show (0 + 2 * n) / 2 = n by omega]
    exact (splitFrom_ends h).trans (by simp)
  | cons c s ih =>
    -- A backslash is only counted: the induction is over all `n`.
    rw [quoteLoop]
    split
    · rename_i hslash
      simp [ih, hslash, replicate_succ']
    split
    · rename_i hquote
      rw [append_assoc, splitFrom_backslashes, cons_append, splitFrom, if_pos rfl, cons_append, splitFrom,
        if_neg (by decide), if_pos rfl, if_neg (by omega), ih, show (0 + 2 * n + 1) / 2 = n by omega]
      simp [hquote]
    · rename_i hslash hquote
      rw [append_assoc, splitFrom_backslashes, cons_append, splitFrom, if_neg hslash, if_neg hquote,
        if_neg (by simp), ih]
      simp

theorem split_quoteCommandLine (hne : s ≠ []) (h : Ends rest others) :
    split (quoteCommandLine s ++ rest) = s :: others := by
  rw [quoteCommandLine, split]
  split
  · rw [cons_append, splitFrom, if_neg (by decide), if_pos rfl, if_pos rfl, append_assoc, singleton_append]
    exact (splitFrom_quoteLoop h).trans (by simp)
  · rename_i hs
    push Not at hs
    exact (splitFrom_plain hs h fun _ => hne).trans (by simp)

theorem split_intercalate (args : List Str) :
    split ([space].intercalate (args.map quoteCommandLine)) = args.filter (· ≠ []) := by
  induction args with
  | nil => rfl
  | cons a args ih =>
    obtain ⟨rest, hrest, hends⟩ : ∃ rest, [space].intercalate ((a :: args).map quoteCommandLine) =
        quoteCommandLine a ++ rest ∧ Ends rest (args.filter (· ≠ [])) := by
      cases args with
      | nil => exact ⟨[], by simp, .inl ⟨rfl, rfl⟩⟩
      | cons b args => exact ⟨_, by simp, .inr ⟨_, rfl, ih.symm⟩⟩
    rw [hrest]
    by_cases ha : a = []
    · -- Nothing is written for it, and the space behind it ends nothing.
      rw [ha, filter_cons_of_neg (by simp)]
      obtain ⟨rfl, hothers⟩ | ⟨line, rfl, hothers⟩ := hends
      all_goals exact hothers.symm
    · rw [split_quoteCommandLine ha hends, filter_cons_of_pos (by simpa using ha)]

/-- The arguments come back if and only if none is empty. -/
theorem split_quoted_iff (args : List Str) :
    split ([space].intercalate (args.map quoteCommandLine)) = args ↔ ∀ a ∈ args, a ≠ [] := by
  rw [split_intercalate, filter_eq_self]
  simp

theorem empty_argument_lost :
    split ([space].intercalate ([[0x61], [], [0x62]].map quoteCommandLine)) = [[0x61], [0x62]] := by
  decide

end GemDroid.Utils.CommandLine
