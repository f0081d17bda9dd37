import Mathlib.Data.List.Nodup

/-! Linked structures read through link cells.

A link cell is a place that holds a pointer: a list head, or the link field of a
node. `read` is what the cells hold and `cell a` is the link field of node `a`.
`Path read cell c l p` says that following links from the cell `c` passes the
nodes `l` in order and ends at the pointer `p`: the null pointer for a plain
list, a marked pointer for a ring. Walks that look for the cell holding a given
node (`findCell`), unlinking and pushing at the front are stated once here. -/
namespace GemDroid.Lib.LinkPath
open Function List

variable {C α : Type}

def Path (read : C → Option α) (cell : α → C) : C → List α → Option α → Prop
  | c, [], p => read c = p
  | c, a :: l, p => read c = some a ∧ Path read cell (cell a) l p

def lastCell (cell : α → C) (c : C) (l : List α) : C := l.foldl (fun _ a => cell a) c

/-- Why a walk finds nothing: it ran into a null link, or it was still going. -/
inductive WalkFault
  | null
  | fuel
  deriving DecidableEq, Repr

/-- Follow links from the cell `c` until one holds a node that `hit` accepts. -/
def findCell (read : C → Option α) (cell : α → C) (hit : α → Bool) : Nat → C → Except WalkFault C
  | 0, _ => .error .fuel
  | fuel + 1, c =>
    match read c with
    | none => .error .null
    | some a => if hit a then .ok c else findCell read cell hit fuel (cell a)

/-- Follow links from the cell `c` as long as they hold nodes that `go` accepts. -/
def walk (read : C → Option α) (cell : α → C) (go : α → Bool) : Nat → C → Option C
  | 0, _ => none
  | fuel + 1, c =>
    match read c with
    | none => some c
    | some a => if go a then walk read cell go fuel (cell a) else some c

variable {read : C → Option α} {cell : α → C}

@[simp] theorem lastCell_nil (c : C) : lastCell cell c [] = c := rfl

@[simp] theorem lastCell_cons (c : C) (a : α) (l : List α) : lastCell cell c (a :: l) = lastCell cell (cell a) l := rfl

theorem lastCell_mem (cell : α → C) (c : C) (l : List α) :
    lastCell cell c l = c ∨ ∃ a ∈ l, lastCell cell c l = cell a := by
  induction l generalizing c with
  | nil => exact .inl rfl
  | cons a l ih =>
    rcases ih (cell a) with h | ⟨b, hb, h⟩
    · exact .inr ⟨a, mem_cons_self .., h⟩
    · exact .inr ⟨b, mem_cons_of_mem _ hb, h⟩

theorem path_append (c : C) (l₁ l₂ : List α) (p : Option α) : Path read cell c (l₁ ++ l₂) p ↔
      Path read cell c l₁ (read (lastCell cell c l₁)) ∧ Path read cell (lastCell cell c l₁) l₂ p := by
  induction l₁ generalizing c with
  | nil => simp [Path]
  | cons a l ih => simp [Path, ih, and_assoc]

variable {c : C} {l l₁ l₂ : List α} {k p : Option α} {a : α} {hit : α → Bool} {fuel : Nat}
  {read' : C → Option α}

theorem path_congr (hc : read' c = read c)
    (hl : ∀ a ∈ l, read' (cell a) = read (cell a)) : Path read' cell c l p ↔ Path read cell c l p := by
  induction l generalizing c with
  | nil => simp [Path, hc]
  | cons a l ih =>
    simp only [Path, hc]
    rw [ih (hl a (mem_cons_self ..)) (forall_mem_cons.mp hl).2]

theorem path_update [DecidableEq C] {x : C} {v : Option α} (hc : x ≠ c) (hl : ∀ a ∈ l, x ≠ cell a) :
    Path (update read x v) cell c l p ↔ Path read cell c l p := by
  apply path_congr
  · rw [update_of_ne hc.symm]
  · intro a ha
    rw [update_of_ne (hl a ha).symm]

/-- Two paths from one cell to one end pointer that neither passes are the same. -/
theorem path_unique {l' : List α} (h : Path read cell c l p)
    (h' : Path read cell c l' p) (hp : ∀ a ∈ l, p ≠ some a) (hp' : ∀ a ∈ l', p ≠ some a) : l = l' := by
  induction l generalizing c l' with
  | nil =>
    cases l' with
    | nil => rfl
    | cons b l' => exact absurd (h.symm.trans h'.1) (hp' b (mem_cons_self ..))
  | cons a l ih =>
    cases l' with
    | nil => exact absurd (h'.symm.trans h.1) (hp a (mem_cons_self ..))
    | cons b l' =>
      obtain rfl : a = b := Option.some.inj (h.1.symm.trans h'.1)
      rw [ih h.2 h'.2 (forall_mem_cons.mp hp).2 (fun x hx => hp' x (mem_cons_of_mem _ hx))]

/-- A path from the link field of `a` does not come back to `a`: from there on it
would go on as from the first time and never reach its end. -/
theorem path_not_mem (h : Path read cell (cell a) l p) (hp : ∀ b ∈ l, p ≠ some b) : a ∉ l := by
  intro ha
  obtain ⟨l₁, l₂, rfl⟩ := append_of_mem ha
  have htail := ((path_append (cell a) l₁ (a :: l₂) p).mp h).2.2
  have := congrArg List.length (path_unique h htail hp
    (fun b hb => hp b (mem_append_right _ (mem_cons_of_mem _ hb))))
  simp at this
  omega

theorem path_nodup (h : Path read cell c l p) (hp : ∀ a ∈ l, p ≠ some a) : l.Nodup := by
  induction l generalizing c with
  | nil => exact nodup_nil
  | cons a l ih =>
    have hp' : ∀ b ∈ l, p ≠ some b := (forall_mem_cons.mp hp).2
    exact nodup_cons.mpr ⟨path_not_mem h.2 hp', ih h.2 hp'⟩

/-- The nodes `l` in order from the pointer `k` on, the last link being `p`: a path
without its first cell, for walks that hold a pointer they have already read. -/
def Trail (read : C → Option α) (cell : α → C) : Option α → List α → Option α → Prop
  | k, [], p => k = p
  | k, a :: l, p => k = some a ∧ Trail read cell (read (cell a)) l p

theorem trail_iff_path : Trail read cell (read c) l p ↔ Path read cell c l p := by
  induction l generalizing c with
  | nil => rfl
  | cons a l ih => simp [Trail, Path, ih]

theorem trail_congr
    (hl : ∀ a ∈ l, read' (cell a) = read (cell a)) : Trail read' cell k l p ↔ Trail read cell k l p := by
  induction l generalizing k with
  | nil => rfl
  | cons a l ih =>
    simp only [Trail, hl a (mem_cons_self ..)]
    rw [ih (forall_mem_cons.mp hl).2]

theorem trail_nodup (h : Trail read cell k l p) (hp : ∀ a ∈ l, p ≠ some a) : l.Nodup := by
  cases l with
  | nil => exact nodup_nil
  | cons a l =>
    have hp' : ∀ b ∈ l, p ≠ some b := (forall_mem_cons.mp hp).2
    have htail := trail_iff_path.mp h.2
    exact nodup_cons.mpr ⟨path_not_mem htail hp', path_nodup htail hp'⟩

/-- A node that a node of the trail links to is on the rest of the trail. -/
theorem trail_next (h : Trail read cell k l p) {b : α} (ha : a ∈ l)
    (hb : read (cell a) = some b) (hp : p ≠ some b) : ∃ l₁ l₂, l = l₁ ++ a :: b :: l₂ := by
  induction l generalizing k with
  | nil => exact absurd ha not_mem_nil
  | cons x l ih =>
    rcases mem_cons.mp ha with rfl | ha
    · cases l with
      | nil => exact absurd (h.2.symm.trans hb) hp
      | cons y l =>
        obtain rfl : b = y := Option.some.inj (hb.symm.trans h.2.1)
        exact ⟨[], l, rfl⟩
    · obtain ⟨l₁, l₂, rfl⟩ := ih h.2 ha
      exact ⟨x :: l₁, l₂, rfl⟩

/-- The walk stops at the cell holding the first node `hit` accepts. -/
theorem findCell_path (h : Path read cell c (l₁ ++ a :: l₂) p) (hmiss : ∀ b ∈ l₁, hit b = false) (ha : hit a = true)
    (hfuel : l₁.length < fuel) : findCell read cell hit fuel c = .ok (lastCell cell c l₁) := by
  induction l₁ generalizing c fuel with
  | nil =>
    obtain ⟨fuel, rfl⟩ := Nat.exists_eq_add_one.2 hfuel
    simp [findCell, h.1, ha]
  | cons b l ih =>
    obtain ⟨fuel, rfl⟩ := Nat.exists_eq_succ_of_ne_zero (Nat.ne_zero_of_lt hfuel)
    have hb : hit b = false := hmiss b (mem_cons_self ..)
    simp only [findCell, h.1, hb, Bool.false_eq_true, if_false, lastCell_cons]
    exact ih h.2 (forall_mem_cons.mp hmiss).2 (by simpa using hfuel)

/-- The cell a walk stops at holds an accepted node. -/
theorem findCell_hit {x : C} (h : findCell read cell hit fuel c = .ok x) : ∃ a, read x = some a ∧ hit a = true := by
  induction fuel generalizing c with
  | zero => cases h
  | succ fuel ih =>
    unfold findCell at h
    split at h
    · cases h
    next a ha =>
    split at h
    · next hit =>
      cases h
      exact ⟨a, ha, hit⟩
    · exact ih h

/-- With nothing to accept on a null-terminated path the walk runs into the null link. -/
theorem findCell_miss (h : Path read cell c l none) (hmiss : ∀ b ∈ l, hit b = false) (hfuel : l.length < fuel) :
    findCell read cell hit fuel c = .error .null := by
  induction l generalizing c fuel with
  | nil =>
    obtain ⟨fuel, rfl⟩ := Nat.exists_eq_add_one.2 hfuel
    have h' : read c = none := h
    simp [findCell, h']
  | cons b l ih =>
    obtain ⟨fuel, rfl⟩ := Nat.exists_eq_succ_of_ne_zero (Nat.ne_zero_of_lt hfuel)
    have hb : hit b = false := hmiss b (mem_cons_self ..)
    simp only [findCell, h.1, hb, Bool.false_eq_true, if_false]
    exact ih h.2 (forall_mem_cons.mp hmiss).2 (by simpa using hfuel)

/-- The walk passes the nodes accepted and stops at the cell behind them. -/
theorem walk_path {go : α → Bool} (h : Path read cell c (l₁ ++ l₂) none)
    (hgo : ∀ a ∈ l₁, go a = true) (hstop : ∀ a, l₂.head? = some a → go a = false) (hfuel : l₁.length < fuel) :
    walk read cell go fuel c = some (lastCell cell c l₁) := by
  induction l₁ generalizing c fuel with
  | nil =>
    obtain ⟨fuel, rfl⟩ := Nat.exists_eq_add_one.2 hfuel
    cases l₂ with
    | nil =>
      have hnull : read c = none := h
      simp [walk, hnull]
    | cons a l =>
      have hread : read c = some a := h.1
      simp [walk, hread, hstop a rfl]
  | cons a l ih =>
    obtain ⟨fuel, rfl⟩ := Nat.exists_eq_succ_of_ne_zero (Nat.ne_zero_of_lt hfuel)
    have hread : read c = some a := h.1
    simp only [walk, hread, hgo a (mem_cons_self ..), if_true, lastCell_cons]
    exact ih h.2 (forall_mem_cons.mp hgo).2 (by simpa using hfuel)

variable [DecidableEq C]

/-- Writing the link of `a` into the cell that holds `a` takes `a` off the path. -/
theorem path_unlink (h : Path read cell c (l₁ ++ a :: l₂) p) (hnodup : (l₁ ++ a :: l₂).Nodup)
    (hinj : Function.Injective cell) (hc : ∀ b ∈ l₁ ++ a :: l₂, c ≠ cell b) :
    Path (update read (lastCell cell c l₁) (read (cell a))) cell c (l₁ ++ l₂) p := by
  induction l₁ generalizing c with
  | nil =>
    obtain ⟨-, htail⟩ := h
    simp only [nil_append, lastCell_nil] at hc ⊢
    cases l₂ with
    | nil =>
      show update read c (read (cell a)) c = p
      rw [update_self]
      exact htail
    | cons b l =>
      refine ⟨by rw [update_self]; exact htail.1, ?_⟩
      rw [path_update (hc b (by simp)) (fun x hx => hc x (by simp [hx]))]
      exact htail.2
  | cons b l ih =>
    rw [cons_append, nodup_cons] at hnodup
    have hcell : ∀ x ∈ l ++ a :: l₂, cell b ≠ cell x := by
      intro x hx he
      exact hnodup.1 (hinj he ▸ hx)
    have hne : lastCell cell (cell b) l ≠ c := by
      rcases lastCell_mem cell (cell b) l with he | ⟨x, hx, he⟩
      · rw [he]
        exact (hc b (by simp)).symm
      · rw [he]
        exact (hc x (by simp [hx])).symm
    refine ⟨?_, ih h.2 hnodup.2 hcell⟩
    rw [lastCell_cons, update_of_ne hne.symm]
    exact h.1

/-- Pushing `a` at the front of the path: its link takes what the cell held. -/
theorem path_push (h : Path read cell c l p)
    (hinj : Function.Injective cell) (ha : a ∉ l) (hc : ∀ b ∈ a :: l, c ≠ cell b) :
    Path (update (update read (cell a) (read c)) c (some a)) cell c (a :: l) p := by
  refine ⟨by rw [update_self], ?_⟩
  have hca : cell a ≠ c := (hc a (mem_cons_self ..)).symm
  have hread : update (update read (cell a) (read c)) c (some a) (cell a) = read c := by
    rw [update_of_ne hca, update_self]
  have hkeep : ∀ b ∈ l, update (update read (cell a) (read c)) c (some a) (cell b) = read (cell b) := by
    intro b hb
    have hcb : cell b ≠ c := (hc b (mem_cons_of_mem _ hb)).symm
    have hab : cell b ≠ cell a := fun he => ha (hinj he ▸ hb)
    rw [update_of_ne hcb, update_of_ne hab]
  cases l with
  | nil => exact hread.trans h
  | cons b l =>
    refine ⟨hread.trans h.1, ?_⟩
    exact (path_congr (hkeep b (mem_cons_self ..)) (forall_mem_cons.mp hkeep).2).mpr h.2

theorem path_insert (h : Path read cell c (l₁ ++ l₂) p)
    (hnodup : (l₁ ++ l₂).Nodup) (hinj : Function.Injective cell) (ha : a ∉ l₁ ++ l₂) (hc : ∀ b, c ≠ cell b) :
    Path (update (update read (cell a) (read (lastCell cell c l₁))) (lastCell cell c l₁) (some a))
      cell c (l₁ ++ a :: l₂) p := by
  suffices hgen : ∀ c, Path read cell c (l₁ ++ l₂) p → (∀ b ∈ a :: (l₁ ++ l₂), c ≠ cell b) →
      Path (update (update read (cell a) (read (lastCell cell c l₁))) (lastCell cell c l₁) (some a))
        cell c (l₁ ++ a :: l₂) p from hgen c h fun b _ => hc b
  clear h hc
  induction l₁ with
  | nil =>
    intro c h hc
    exact path_push h hinj ha hc
  | cons b l ih =>
    intro c h hc
    rw [cons_append, nodup_cons] at hnodup
    rw [cons_append, mem_cons, not_or] at ha
    have hcell : ∀ x ∈ a :: (l ++ l₂), cell b ≠ cell x := by
      intro x hx he
      obtain rfl | hx := mem_cons.mp hx
      · exact ha.1 (hinj he).symm
      · exact hnodup.1 (hinj he ▸ hx)
    have hne : c ≠ lastCell cell (cell b) l := by
      obtain he | ⟨x, hx, he⟩ := lastCell_mem cell (cell b) l
      · rw [he]
        exact hc b (by simp)
      · rw [he]
        exact hc x (by simp [hx])
    refine ⟨?_, ih hnodup.2 ha.2 (cell b) h.2 hcell⟩
    rw [lastCell_cons, update_of_ne hne, update_of_ne (hc a (by simp))]
    exact h.1

end GemDroid.Lib.LinkPath
