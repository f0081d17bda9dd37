import Mathlib.Data.List.Basic

/-! Computations that may fail, one after the other and one for each item of a list. -/
namespace GemDroid.Lib
open List

variable {ε α β : Type}

theorem ok_bind (a : α) (f : α → Except ε β) : (Except.ok a >>= f) = f a := rfl

theorem error_bind (e : ε) (f : α → Except ε β) : (Except.error e >>= f) = .error e := rfl

variable {f : α → Except ε β}

theorem exists_ok_of_bind {x : Except ε α} {b : β} (h : x >>= f = .ok b) : ∃ a, x = .ok a ∧ f a = .ok b := by
  cases x with
  | error e => cases h
  | ok a => exact ⟨a, rfl, h⟩

theorem exists_ok_of_map {x : Except ε α} {g : α → β} {b : β} (h : x.map g = .ok b) : ∃ a, x = .ok a ∧ g a = b := by
  cases x with
  | error e => cases h
  | ok a => exact ⟨a, rfl, Except.ok.inj h⟩

theorem error_of_map {x : Except ε α} {g : α → β} {e : ε} (h : x.map g = .error e) : x = .error e := by
  cases x with
  | error e' => exact congrArg _ (Except.error.inj h)
  | ok a => cases h

theorem exists_of_mapM_error {e : ε} (l : List α) (h : l.mapM f = .error e) : ∃ a ∈ l, f a = .error e := by
  induction l with
  | nil => cases h
  | cons a l ih =>
    rw [mapM_cons] at h
    cases ha : f a with
    | error e' =>
      rw [ha, error_bind] at h
      cases h
      exact ⟨a, by simp, ha⟩
    | ok b =>
      rw [ha, ok_bind] at h
      cases hl : l.mapM f with
      | error e' =>
        rw [hl, error_bind] at h
        cases h
        obtain ⟨a', ha', he⟩ := ih hl
        exact ⟨a', by simp [ha'], he⟩
      | ok bs =>
        rw [hl] at h
        cases h

theorem mapM_ok_iff (l : List α) : (∃ r, l.mapM f = .ok r) ↔ ∀ a ∈ l, ∃ b, f a = .ok b := by
  induction l with
  | nil => exact ⟨by simp, fun _ => ⟨[], rfl⟩⟩
  | cons a l ih =>
    rw [mapM_cons, forall_mem_cons, ← ih]
    cases ha : f a with
    | error e =>
      rw [error_bind]
      simp
    | ok b =>
      rw [ok_bind]
      cases hl : l.mapM f with
      | error e =>
        rw [error_bind]
        simp
      | ok bs =>
        rw [ok_bind]
        exact ⟨fun _ => ⟨⟨b, rfl⟩, ⟨bs, rfl⟩⟩, fun _ => ⟨_, rfl⟩⟩

end GemDroid.Lib
