import Mathlib.Logic.Basic

/-! Runs of a system that takes one step after another.

`Reach init next` holds of the states some run reaches: it starts where `init` allows and
takes the steps `next` allows. What holds at the start and is kept by every step holds in
every state reached. -/
namespace GemDroid.Lib

variable {S A : Type} {init : S → Prop} {next next' : S → A → S → Prop} {s s' : S}

inductive Reach (init : S → Prop) (next : S → A → S → Prop) : S → Prop
  | start {s : S} (h : init s) : Reach init next s
  | step {s s' : S} {a : A} (h : Reach init next s) (hn : next s a s') : Reach init next s'

namespace Reach

theorem invariant {I : S → Prop} (h : Reach init next s) (hinit : ∀ s, init s → I s)
    (hstep : ∀ s a s', I s → next s a s' → I s') : I s := by
  induction h with
  | start h => exact hinit _ h
  | step _ hn ih => exact hstep _ _ _ ih hn

theorem mono (h : Reach init next s) (hn : ∀ s a s', next s a s' → next' s a s') : Reach init next' s := by
  induction h with
  | start h => exact .start h
  | step _ h ih => exact .step ih (hn _ _ _ h)

theorem foldl {f : S → A → S} (as : List A) (hstep : ∀ a ∈ as, ∀ s, next s a (f s a)) (h : Reach init next s) :
    Reach init next (as.foldl f s) := by
  induction as generalizing s with
  | nil => exact h
  | cons a as ih => exact ih (fun a ha => hstep a (List.mem_cons_of_mem _ ha)) (h.step (hstep a List.mem_cons_self s))

end Reach

end GemDroid.Lib
