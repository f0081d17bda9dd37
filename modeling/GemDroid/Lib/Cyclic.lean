import Mathlib.Data.Nat.ModEq

/-! Going around in a circle.

The elements of `V` stand in a circle of length `N`: `pos` numbers them, and `next` goes from
one to the one numbered next. A search that starts somewhere, looks at one after another and
ends where it began has looked at all of them. -/
namespace GemDroid.Lib
open Nat

variable {α : Type} {N : Nat} {V : α → Prop} {next : α → α} {pos : α → Nat} {a b : α}

/-- A circle, with its elements numbered. -/
structure Cyclic (N : Nat) (V : α → Prop) (next : α → α) (pos : α → Nat) : Prop where
  lt : ∀ a, V a → pos a < N
  inj : ∀ a b, V a → V b → pos a = pos b → a = b
  keep : ∀ a, V a → V (next a)
  step : ∀ a, V a → pos (next a) = (pos a + 1) % N

namespace Cyclic

section
variable (h : Cyclic N V next pos) (ha : V a)
include h ha

theorem iterate (m : Nat) : V (next^[m] a) ∧ pos (next^[m] a) = (pos a + m) % N := by
  induction m with
  | zero => exact ⟨ha, (mod_eq_of_lt (h.lt a ha)).symm⟩
  | succ m ih =>
    rw [Function.iterate_succ_apply']
    refine ⟨h.keep _ ih.1, ?_⟩
    rw [h.step _ ih.1, ih.2, mod_add_mod, add_assoc]

/-- Every element is come by in one round. -/
theorem exists_iterate (hb : V b) : ∃ m < N, next^[m] a = b := by
  have hpa := h.lt a ha
  have hpb := h.lt b hb
  refine ⟨(pos b + (N - pos a)) % N, mod_lt _ (by omega), ?_⟩
  obtain ⟨hv, hp⟩ := h.iterate ha ((pos b + (N - pos a)) % N)
  apply h.inj _ _ hv hb
  rw [hp, add_mod_mod, show pos a + (pos b + (N - pos a)) = pos b + N by omega, add_mod_right, mod_eq_of_lt hpb]

/-- The start is not met again before the round is over. -/
theorem eq_of_iterate {m : Nat} (hm : 0 < m) (hmN : m ≤ N) (heq : next^[m] a = a) : m = N := by
  have hpa := h.lt a ha
  obtain ⟨-, hp⟩ := h.iterate ha m
  rw [heq] at hp
  by_contra hne
  by_cases hlt : pos a + m < N
  · rw [mod_eq_of_lt hlt] at hp
    omega
  · rw [mod_eq_sub_mod (by omega), mod_eq_of_lt (by omega)] at hp
    omega

end

end Cyclic

/-- Look at one element after another, until one is hit or the search is back home. -/
def search (next : α → α) (hit home : α → Bool) : Nat → α → Option (Bool × α)
  | 0, _ => none
  | fuel + 1, a =>
    if hit a then some (true, a)
    else if home (next a) then some (false, next a)
    else search next hit home fuel (next a)

theorem search_succ {hit home : α → Bool} {r : Bool × α} : ∀ {fuel : Nat} {a : α},
    search next hit home fuel a = some r → search next hit home (fuel + 1) a = some r := by
  intro fuel
  induction fuel with
  | zero =>
    intro a h
    cases h
  | succ fuel ih =>
    intro a h
    rw [search] at h ⊢
    split
    next hh => rwa [if_pos hh] at h
    next hh =>
      rw [if_neg hh] at h
      split
      next hhome => rwa [if_pos hhome] at h
      next hhome =>
        rw [if_neg hhome] at h
        exact ih h

/-- A search around the circle ends, and misses nothing. -/
theorem search_spec (h : Cyclic N V next pos) (hit home : α → Bool) (ha : V a)
    (hhome : ∀ b, V b → (home b = true ↔ b = a)) : ∃ r, search next hit home N a = some r ∧
      (r.1 = true → V r.2 ∧ hit r.2 = true) ∧ (r.1 = false → r.2 = a ∧ ∀ b, V b → hit b = false) := by
  -- after `m` steps without a hit, the rest of the round is left
  have hall : ∀ k m, m + k = N → (∀ i < m, hit (next^[i] a) = false) → 0 < k →
      ∃ r, search next hit home k (next^[m] a) = some r ∧ (r.1 = true → V r.2 ∧ hit r.2 = true) ∧
        (r.1 = false → r.2 = a ∧ ∀ b, V b → hit b = false) := by
    intro k
    induction k with
    | zero => exact fun m _ _ hk => absurd hk (lt_irrefl 0)
    | succ k ih =>
      intro m hsum hmiss _
      obtain ⟨hv, -⟩ := h.iterate ha m
      rw [search]
      cases hh : hit (next^[m] a) with
      | true => exact ⟨(true, next^[m] a), rfl, fun _ => ⟨hv, hh⟩, by simp⟩
      | false =>
        have hmiss' : ∀ i < m + 1, hit (next^[i] a) = false := by
          intro i hi
          obtain hlt | rfl := Nat.lt_succ_iff_lt_or_eq.mp hi
          · exact hmiss i hlt
          · exact hh
        rw [if_neg (by simp), ← Function.iterate_succ_apply' next m a]
        cases hhm : home (next^[m + 1] a) with
        | true =>
          rw [if_pos rfl]
          have heq : next^[m + 1] a = a := (hhome _ (h.iterate ha (m + 1)).1).mp hhm
          have hm : m + 1 = N := h.eq_of_iterate ha (by omega) (by omega) heq
          have hnone : ∀ b, V b → hit b = false := by
            intro b hb
            obtain ⟨i, hi, rfl⟩ := h.exists_iterate ha hb
            exact hmiss' i (by omega)
          exact ⟨(false, next^[m + 1] a), rfl, by simp, fun _ => ⟨heq, hnone⟩⟩
        | false =>
          rw [if_neg (by simp)]
          apply ih (m + 1) (by omega) hmiss'
          -- the round is not over, or the search would be home
          by_contra hk
          have hm : m + 1 = N := by omega
          have hself : next^[m + 1] a = a := by
            obtain ⟨hv', hp⟩ := h.iterate ha (m + 1)
            apply h.inj _ _ hv' ha
            rw [hp, hm, add_mod_right, mod_eq_of_lt (h.lt a ha)]
          rw [hself, (hhome a ha).mpr rfl] at hhm
          cases hhm
  exact hall N 0 (by omega) (by simp) (lt_of_le_of_lt (zero_le _) (h.lt a ha))

end GemDroid.Lib
