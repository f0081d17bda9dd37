import GemDroid.Lib.Overlay
import Mathlib.Algebra.BigOperators.Group.Finset.Piecewise
import Mathlib.Algebra.Ring.Nat

/-! The cells of an overlay, counted from the two lists without walking along them. A cell begins at
each begin or end of a stretch that lies in a stretch of either list, and nowhere else: the walk
leaves no such point inside a cell. -/
namespace GemDroid.Lib.Overlay
open List

variable {α β γ : Type} {n t : Int} {l : List (Piece α)} {m : List (Piece β)} {p : Piece α} {q : Piece β}

def ends (l : List (Piece α)) : Finset Int := (l.flatMap fun p => [p.lo, p.hi]).toFinset

/-- The points where a stretch of either list begins or ends. -/
def cuts (l : List (Piece α)) (m : List (Piece β)) : Finset Int := ends l ∪ ends m

def cellAt (l : List (Piece α)) (m : List (Piece β)) (t : Int) : Option (Cell α β) :=
  Cell.of (valueAt l t) (valueAt m t)

theorem mem_ends : t ∈ ends l ↔ ∃ p ∈ l, t = p.lo ∨ t = p.hi := by
  simp [ends]

theorem ends_mem_ends (l : List (Piece α)) : Ends (· ∈ ends l) l :=
  fun p hp => ⟨mem_ends.2 ⟨p, hp, .inl rfl⟩, mem_ends.2 ⟨p, hp, .inr rfl⟩⟩

theorem Ends.imp {C D : Int → Prop} (h : Ends C l) (hCD : ∀ t, C t → D t) : Ends D l :=
  fun p hp => ⟨hCD _ (h p hp).1, hCD _ (h p hp).2⟩

theorem SortedFrom.ends_ge (h : SortedFrom n l) : Ends (n ≤ ·) l := by
  intro p hp
  have := h.le_of_mem p hp
  exact ⟨this.1, by omega⟩

/-! ### No cell is cut -/

/-- The point is not strictly inside the stretch. -/
def Outside (c : Piece γ) (t : Int) : Prop := t ≤ c.lo ∨ c.hi ≤ t

theorem SortedFrom.outside (h : SortedFrom n l) (hp : p ∈ l) : Ends (Outside p) l := by
  induction l generalizing n with
  | nil => exact absurd hp not_mem_nil
  | cons p' l ih =>
    cases hp with
    | head => exact ends_cons (.inl le_rfl) (.inr le_rfl) (h.2.2.ends_ge.imp fun t ht => .inr ht)
    | tail _ hp =>
      have hlo := (h.2.2.le_of_mem p hp).1
      have := h.2.1
      exact ends_cons (.inl (by omega)) (.inl hlo) (ih h.2.2 hp)

theorem ends_of_after {C : Int → Prop} {cut : Int} (h : Ends C (after p l cut)) (hlo : C p.lo)
    (hhi : p.hi ≤ cut → C p.hi) : Ends C (p :: l) := by
  rw [after] at h
  split at h
  · rename_i hle
    exact ends_cons hlo (hhi hle) h
  · exact ends_cons hlo (h _ mem_cons_self).2 (forall_mem_cons.1 h).2

theorem outside_walk {fuel : Nat} {c : Piece (Cell α β)} (hl : SortedFrom n l) (hm : SortedFrom n m)
    (hc : c ∈ walk fuel l m) : Ends (Outside c) l ∧ Ends (Outside c) m := by
  induction fuel generalizing n l m with
  | zero => exact absurd hc not_mem_nil
  | succ fuel ih =>
    match l, m with
    | l, [] =>
      rw [walk, mem_map] at hc
      obtain ⟨p, hp, rfl⟩ := hc
      exact ⟨hl.outside hp, fun q hq => absurd hq not_mem_nil⟩
    | [], q :: m =>
      rw [walk, mem_map] at hc
      · obtain ⟨q, hq, rfl⟩ := hc
        exact ⟨fun p hp => absurd hp not_mem_nil, hm.outside hq⟩
      · exact cons_ne_nil _ _
    | p :: l, q :: m =>
      have hp := hl.2.1
      have hq := hm.2.1
      have hl' := hl.2.2.ends_ge
      have hm' := hm.2.2.ends_ge
      rw [walk] at hc
      split at hc
      · rename_i hpq
        cases hc with
        | head =>
          exact ⟨hl.outside mem_cons_self, ends_cons (.inr hpq) (.inr (by simp only; omega))
            (hm'.imp fun t ht => .inr (by simp only; omega))⟩
        | tail _ hc =>
          have hq : SortedFrom p.hi (q :: m) := ⟨hpq, hm.2⟩
          have hlo := ((sortedFrom_walk fuel hl.2.2 hq).le_of_mem c hc).1
          obtain ⟨hcl, hcm⟩ := ih hl.2.2 hq hc
          exact ⟨ends_cons (.inl (by omega)) (.inl hlo) hcl, hcm⟩
      split at hc
      · rename_i hqp
        cases hc with
        | head =>
          exact ⟨ends_cons (.inr hqp) (.inr (by simp only; omega))
            (hl'.imp fun t ht => .inr (by simp only; omega)), hm.outside mem_cons_self⟩
        | tail _ hc =>
          have hp : SortedFrom q.hi (p :: l) := ⟨hqp, hl.2⟩
          have hlo := ((sortedFrom_walk fuel hp hm.2.2).le_of_mem c hc).1
          obtain ⟨hcl, hcm⟩ := ih hp hm.2.2 hc
          exact ⟨hcl, ends_cons (.inl (by omega)) (.inl hlo) hcm⟩
      rename_i hpq hqp
      -- a cell that ends before both stretches do, and begins with the later of them at most
      have hfirst : ∀ c : Piece (Cell α β), (c.hi ≤ p.lo ∨ p.lo ≤ c.lo) → (c.hi ≤ q.lo ∨ q.lo ≤ c.lo) →
          c.hi ≤ p.hi → c.hi ≤ q.hi → Ends (Outside c) (p :: l) ∧ Ends (Outside c) (q :: m) :=
        fun c hclo hqlo hchi hqhi => ⟨ends_cons hclo.symm (.inr hchi) (hl'.imp fun t ht => .inr (by omega)),
          ends_cons hqlo.symm (.inr hqhi) (hm'.imp fun t ht => .inr (by omega))⟩
      rw [mem_append, mem_cons] at hc
      rcases hc with hc | rfl | hc
      · rw [before] at hc
        split at hc
        · rw [mem_singleton.1 hc]
          exact hfirst _ (.inr le_rfl) (.inl le_rfl) (by simp only; omega) (by simp only; omega)
        split at hc
        · rw [mem_singleton.1 hc]
          exact hfirst _ (.inl le_rfl) (.inr le_rfl) (by simp only; omega) (by simp only; omega)
        · exact absurd hc not_mem_nil
      · exact hfirst _ (.inr (by simp only; omega)) (.inr (by simp only; omega)) (by simp only; omega)
          (by simp only; omega)
      · obtain ⟨hla, hma⟩ := sortedFrom_after_both hl hm
        have hlo := ((sortedFrom_walk fuel hla hma).le_of_mem c hc).1
        obtain ⟨hcl, hcm⟩ := ih hla hma hc
        exact ⟨ends_of_after hcl (.inl (by omega)) fun h => .inl (by omega),
          ends_of_after hcm (.inl (by omega)) fun h => .inl (by omega)⟩

/-! ### Where the cells begin -/

theorem lo_mem_cuts {c : Piece (Cell α β)} (hc : c ∈ overlay l m) : c.lo ∈ cuts l m :=
  (ends_overlay ((ends_mem_ends l).imp fun _ => Finset.mem_union_left _)
    ((ends_mem_ends m).imp fun _ => Finset.mem_union_right _) c hc).1

section
variable (hl : SortedFrom n l) (hm : SortedFrom n m)
include hl hm

theorem cellAt_lo {c : Piece (Cell α β)} (hc : c ∈ overlay l m) : cellAt l m c.lo = some c.val := by
  have hsorted := sortedFrom_overlay hl hm
  rw [cellAt, ← valueAt_overlay hl hm, valueAt_of_mem hsorted hc le_rfl (hsorted.le_of_mem c hc).2]

theorem exists_cell {v : Cell α β} (ht : t ∈ cuts l m) (hv : cellAt l m t = some v) :
    ∃ c ∈ overlay l m, c.lo = t ∧ c.val = v := by
  rw [cellAt, ← valueAt_overlay hl hm] at hv
  obtain ⟨c, hc, hlo, hhi, hval⟩ := mem_of_valueAt hv
  obtain ⟨hcl, hcm⟩ := outside_walk hl hm hc
  have hout : Outside c t := by
    rcases Finset.mem_union.1 ht with h | h
    · obtain ⟨p, hp, rfl | rfl⟩ := mem_ends.1 h
      exacts [(hcl p hp).1, (hcl p hp).2]
    · obtain ⟨q, hq, rfl | rfl⟩ := mem_ends.1 h
      exacts [(hcm q hq).1, (hcm q hq).2]
  exact ⟨c, hc, le_antisymm hlo (hout.resolve_right (by omega)), hval⟩

omit hm in
theorem SortedFrom.nodup_lo : (l.map Piece.lo).Nodup := by
  induction l generalizing n with
  | nil => exact .nil
  | cons p l ih =>
    refine nodup_cons.2 ⟨fun hp => ?_, ih hl.2.2⟩
    obtain ⟨p', hp', heq⟩ := mem_map.1 hp
    have := (hl.2.2.le_of_mem p' hp').1
    have := hl.2.1
    omega

/-- A sum over the cells is one over the points where a stretch begins or ends. -/
theorem sum_overlay (g : Option (Cell α β) → Nat) (hg : g none = 0) :
    ((overlay l m).map fun c => g (some c.val)).sum = ∑ t ∈ cuts l m, g (cellAt l m t) := by
  have hmap : ((overlay l m).map fun c => g (some c.val)) =
      ((overlay l m).map Piece.lo).map fun t => g (cellAt l m t) := by
    rw [map_map]
    exact map_congr_left fun c hc => congrArg g (cellAt_lo hl hm hc).symm
  rw [hmap, ← sum_toFinset _ (sortedFrom_overlay hl hm).nodup_lo]
  refine Finset.sum_subset (fun t ht => ?_) fun t ht hnone => ?_
  · obtain ⟨c, hc, rfl⟩ := mem_map.1 (mem_toFinset.1 ht)
    exact lo_mem_cuts hc
  · cases hcell : cellAt l m t with
    | none => exact hg
    | some v =>
      obtain ⟨c, hc, rfl, _⟩ := exists_cell hl hm ht hcell
      exact absurd (mem_toFinset.2 (mem_map_of_mem hc)) hnone

end

/-- The stretches that pass a test, counted. -/
theorem length_keep_test (test : α → Bool) (l : List (Piece α)) :
    (keep (fun v => if test v then some () else none) l).length = (l.map fun p => if test p.val then 1 else 0).sum := by
  induction l with
  | nil => rfl
  | cons p l ih =>
    rw [map_cons, sum_cons]
    by_cases h : test p.val = true
    · rw [keep_cons_some l (if_pos h), length_cons, ih, if_pos h, Nat.add_comm]
    · rw [keep_cons_none l (if_neg h), ih, if_neg h, zero_add]

end GemDroid.Lib.Overlay
