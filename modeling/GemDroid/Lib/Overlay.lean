import Mathlib.Data.List.Basic
import Mathlib.Order.Basic

/-! Two lists of labelled half-open stretches of a line, each in increasing
order, laid over each other. The walk goes along both at once and cuts the line
wherever a stretch of either begins or ends; every cell of the result says
whether it lies in a stretch of the first list, of the second or of both. What
a position finds in the overlay is what it finds in the two lists, the cells are
in increasing order again, and their number is bounded by the numbers of
stretches. -/
namespace GemDroid.Lib.Overlay
open List Function Option

variable {α β γ : Type}

/-- The stretch from `lo` up to but not including `hi`, with its label. -/
structure Piece (α : Type) where
  lo : Int
  hi : Int
  val : α
deriving DecidableEq, Repr

/-- The label of the first stretch that holds a position. -/
def valueAt : List (Piece α) → Int → Option α
  | [], _ => none
  | p :: l, t => if p.lo ≤ t ∧ t < p.hi then some p.val else valueAt l t

/-- No stretch is empty, each begins at or after the end of the one before it,
and the first at or after `n`. -/
def SortedFrom : Int → List (Piece α) → Prop
  | _, [] => True
  | n, p :: l => n ≤ p.lo ∧ p.lo < p.hi ∧ SortedFrom p.hi l

/-- Every begin and every end has the property `C`. -/
def Ends (C : Int → Prop) (l : List (Piece α)) : Prop :=
  ∀ p ∈ l, C p.lo ∧ C p.hi

variable {cut n t : Int} {l : List (Piece α)} {p : Piece α} {f : α → Option γ} {C : Int → Prop} {q : Piece β}
  {m : List (Piece β)}

theorem sortedFrom_shift (f : α → γ) (d : Int) (h : SortedFrom n l) :
    SortedFrom (n + d) (l.map fun p => (⟨p.lo + d, p.hi + d, f p.val⟩ : Piece γ)) := by
  induction l generalizing n with
  | nil => exact True.intro
  | cons p l ih =>
    exact ⟨Int.add_le_add_right h.1 d, Int.add_lt_add_right h.2.1 d, ih h.2.2⟩

theorem sortedFrom_single (hn : n ≤ p.lo) (h : p.lo < p.hi) : SortedFrom n [p] :=
  ⟨hn, h, True.intro⟩

theorem mem_of_valueAt {v : α} (h : valueAt l t = some v) : ∃ p ∈ l, p.lo ≤ t ∧ t < p.hi ∧ p.val = v := by
  induction l with
  | nil => exact absurd h nofun
  | cons p l ih =>
    rw [valueAt] at h
    split at h
    · rename_i hin
      exact ⟨p, mem_cons_self, hin.1, hin.2, some.inj h⟩
    · obtain ⟨q, hq, hrest⟩ := ih h
      exact ⟨q, mem_cons_of_mem _ hq, hrest⟩

section
variable (h : SortedFrom n l)
include h

theorem SortedFrom.mono {k : Int} (hk : k ≤ n) : SortedFrom k l := by
  cases l with
  | nil => exact True.intro
  | cons p l => exact ⟨by have := h.1; omega, h.2⟩

theorem SortedFrom.of_le {k : Int} (hk : ∀ p ∈ l, k ≤ p.lo) : SortedFrom k l := by
  cases l with
  | nil => exact True.intro
  | cons p l => exact ⟨hk p mem_cons_self, h.2⟩

theorem SortedFrom.le_of_mem : ∀ p ∈ l, n ≤ p.lo ∧ p.lo < p.hi := by
  induction l generalizing n with
  | nil => simp
  | cons q l ih =>
    intro p hp
    obtain ⟨hq, hlt, hl⟩ := h
    cases mem_cons.mp hp with
    | inl heq => subst heq; exact ⟨hq, hlt⟩
    | inr hp =>
      have := ih hl p hp
      omega

theorem valueAt_of_lt (ht : t < n) : valueAt l t = none := by
  induction l generalizing n with
  | nil => rfl
  | cons p l ih =>
    obtain ⟨hn, hlt, hl⟩ := h
    rw [valueAt, if_neg (by omega), ih hl (by omega)]

/-- In a list in order no stretch hides another. -/
theorem valueAt_of_mem (hp : p ∈ l) (hlo : p.lo ≤ t) (hhi : t < p.hi) : valueAt l t = some p.val := by
  induction l generalizing n with
  | nil => exact absurd hp not_mem_nil
  | cons q l ih =>
    obtain ⟨_, _, hl⟩ := h
    cases mem_cons.mp hp with
    | inl heq => subst heq; rw [valueAt, if_pos ⟨hlo, hhi⟩]
    | inr hp =>
      have := (hl.le_of_mem p hp).1
      rw [valueAt, if_neg (by omega), ih hl hp]

end

/-! ### Labels changed or dropped -/

/-- The stretches whose label `f` keeps, with the label it gives. -/
def keep (f : α → Option γ) (l : List (Piece α)) : List (Piece γ) :=
  l.filterMap fun p => (f p.val).map fun v => ⟨p.lo, p.hi, v⟩

theorem keep_cons_none (l : List (Piece α)) (h : f p.val = none) : keep f (p :: l) = keep f l := by
  simp [keep, h]

theorem keep_cons_some (l : List (Piece α)) {v : γ}
    (h : f p.val = some v) : keep f (p :: l) = ⟨p.lo, p.hi, v⟩ :: keep f l := by
  simp [keep, h]

theorem sortedFrom_keep (f : α → Option γ) (h : SortedFrom n l) : SortedFrom n (keep f l) := by
  induction l generalizing n with
  | nil => exact True.intro
  | cons p l ih =>
    obtain ⟨hn, hlt, hl⟩ := h
    cases hf : f p.val with
    | none => rw [keep_cons_none l hf]; exact (ih hl).mono (by omega)
    | some v => rw [keep_cons_some l hf]; exact ⟨hn, hlt, ih hl⟩

theorem valueAt_keep (f : α → Option γ) (h : SortedFrom n l)
    (t : Int) : valueAt (keep f l) t = (valueAt l t).bind f := by
  induction l generalizing n with
  | nil => rfl
  | cons p l ih =>
    obtain ⟨hn, hlt, hl⟩ := h
    cases hf : f p.val with
    | none =>
      rw [keep_cons_none l hf, ih hl, valueAt]
      split
      · rename_i hin
        rw [valueAt_of_lt hl hin.2]
        exact hf.symm
      · rfl
    | some v =>
      rw [keep_cons_some l hf, valueAt, valueAt, ih hl]
      split
      · exact hf.symm
      · rfl

theorem mem_keep {q : Piece γ} (h : q ∈ keep f l) : ∃ p ∈ l, p.lo = q.lo ∧ p.hi = q.hi ∧ f p.val = some q.val := by
  obtain ⟨p, hp, hf⟩ := mem_filterMap.mp h
  obtain ⟨v, hv, rfl⟩ := map_eq_some_iff.mp hf
  exact ⟨p, hp, rfl, rfl, hv⟩

theorem filter_eq_keep (test : α → Bool) (l : List (Piece α)) :
    l.filter (fun p => test p.val) = keep (fun v => if test v then some v else none) l := by
  induction l with
  | nil => rfl
  | cons p l ih =>
    by_cases h : test p.val = true
    · rw [filter_cons, if_pos h, keep_cons_some l (if_pos h), ih]
    · rw [filter_cons, if_neg h, keep_cons_none l (if_neg h), ih]

theorem ends_keep (f : α → Option γ) (h : Ends C l) : Ends C (keep f l) := by
  intro q hq
  obtain ⟨p, hp, hlo, hhi, _⟩ := mem_keep hq
  rw [← hlo, ← hhi]
  exact h p hp

/-- What is kept is at most what a test that all of it passes counts. -/
theorem length_keep_le (f : α → Option γ) (test : α → Bool)
    (htest : ∀ a, (f a).isSome → test a = true) (l : List (Piece α)) :
    (keep f l).length ≤ l.countP fun p => test p.val := by
  induction l with
  | nil => exact Nat.le_refl _
  | cons p l ih =>
    cases hf : f p.val with
    | none =>
      rw [keep_cons_none l hf, countP_cons]
      omega
    | some v =>
      have hp : test p.val = true := htest p.val (by rw [hf]; rfl)
      rw [keep_cons_some l hf, length_cons, countP_cons, if_pos hp]
      omega

/-! ### The walk along two lists -/

/-- Where a cell of the overlay lies. -/
inductive Cell (α β : Type) where
  | one (a : α)
  | two (b : β)
  | both (a : α) (b : β)
deriving DecidableEq, Repr

open Cell

/-- The cell of a position, from what it finds in the two lists. -/
def Cell.of : Option α → Option β → Option (Cell α β)
  | none, none => none
  | some a, none => some (.one a)
  | none, some b => some (.two b)
  | some a, some b => some (.both a b)

def Cell.All (P : α → Prop) (Q : β → Prop) : Cell α β → Prop
  | .one a => P a
  | .two b => Q b
  | .both a b => P a ∧ Q b

def Cell.isBoth : Cell α β → Bool
  | .both _ _ => true
  | _ => false

def Cell.inOne : Cell α β → Bool
  | .two _ => false
  | _ => true

/-- The part of two meeting stretches before the later of their begins. -/
def before (p : Piece α) (q : Piece β) : List (Piece (Cell α β)) :=
  if p.lo < q.lo then [⟨p.lo, q.lo, .one p.val⟩]
  else if q.lo < p.lo then [⟨q.lo, p.lo, .two q.val⟩]
  else []

def after (p : Piece α) (l : List (Piece α)) (cut : Int) : List (Piece α) :=
  if p.hi ≤ cut then l else ⟨cut, p.hi, p.val⟩ :: l

/-- The walk along both lists. Every round takes at least one stretch off, so
that the lengths together are fuel enough. -/
def walk : Nat → List (Piece α) → List (Piece β) → List (Piece (Cell α β))
  | 0, _, _ => []
  | _ + 1, l, [] => l.map fun p => ⟨p.lo, p.hi, .one p.val⟩
  | _ + 1, [], m => m.map fun q => ⟨q.lo, q.hi, .two q.val⟩
  | fuel + 1, p :: l, q :: m =>
    if p.hi ≤ q.lo then ⟨p.lo, p.hi, .one p.val⟩ :: walk fuel l (q :: m)
    else if q.hi ≤ p.lo then ⟨q.lo, q.hi, .two q.val⟩ :: walk fuel (p :: l) m
    else before p q ++ ⟨max p.lo q.lo, min p.hi q.hi, .both p.val q.val⟩ ::
      walk fuel (after p l q.hi) (after q m p.hi)

def overlay (l : List (Piece α)) (m : List (Piece β)) : List (Piece (Cell α β)) :=
  walk (l.length + m.length) l m

theorem overlay_ne_nil (hl : l ≠ []) (m : List (Piece β)) : overlay l m ≠ [] := by
  obtain ⟨p, l, rfl⟩ := exists_cons_of_ne_nil hl
  cases m with
  | nil => simp [overlay, walk]
  | cons q m =>
    rw [overlay, length_cons, show l.length + 1 + (q :: m).length = l.length + (q :: m).length + 1 by omega, walk]
    split
    · exact cons_ne_nil _ _
    · split
      · exact cons_ne_nil _ _
      · exact append_ne_nil_of_right_ne_nil _ (cons_ne_nil _ _)

theorem length_after_le (p : Piece α) (l : List (Piece α)) (cut : Int) : (after p l cut).length ≤ l.length + 1 := by
  rw [after]
  split
  · omega
  · exact Nat.le_refl _

theorem sortedFrom_after (h : SortedFrom n (p :: l)) : SortedFrom (min p.hi cut) (after p l cut) := by
  rw [after]
  split
  · exact h.2.2.mono (by omega)
  · exact ⟨by simp only; omega, by simp only; omega, h.2.2⟩

theorem sortedFrom_after_both (hl : SortedFrom n (p :: l)) (hm : SortedFrom n (q :: m)) :
    SortedFrom (min p.hi q.hi) (after p l q.hi) ∧ SortedFrom (min p.hi q.hi) (after q m p.hi) :=
  ⟨sortedFrom_after hl, Int.min_comm q.hi p.hi ▸ sortedFrom_after hm⟩

theorem valueAt_after (hlo : p.lo < cut) (ht : min p.hi cut ≤ t) : valueAt (after p l cut) t = valueAt (p :: l) t := by
  rw [after]
  split
  · rw [valueAt, if_neg (by omega)]
  · simp only [valueAt]
    by_cases hin : t < p.hi
    · rw [if_pos ⟨by omega, hin⟩, if_pos ⟨by omega, hin⟩]
    · rw [if_neg (by omega), if_neg (by omega)]

/-- One of two meeting stretches is used up when the walk goes on. -/
theorem length_after_add_le (p : Piece α) (l : List (Piece α)) (q : Piece β) (m : List (Piece β)) :
    (after p l q.hi).length + (after q m p.hi).length ≤ l.length + m.length + 1 := by
  by_cases h : p.hi ≤ q.hi
  · have := length_after_le q m p.hi
    rw [after, if_pos h]
    omega
  · have := length_after_le p l q.hi
    rw [after.eq_1 q, if_pos (by omega)]
    omega

theorem valueAt_map (f : α → γ) (l : List (Piece α)) (t : Int) :
    valueAt (l.map fun p => ⟨p.lo, p.hi, f p.val⟩) t = (valueAt l t).map f := by
  induction l with
  | nil => rfl
  | cons p l ih =>
    simp only [map_cons, valueAt, ih]
    split <;> rfl

theorem sortedFrom_map (f : α → γ) (h : SortedFrom n l) :
    SortedFrom n (l.map fun p => (⟨p.lo, p.hi, f p.val⟩ : Piece γ)) := by
  induction l generalizing n with
  | nil => exact True.intro
  | cons p l ih => exact ⟨h.1, h.2.1, ih h.2.2⟩

theorem valueAt_append (l m : List (Piece α)) (t : Int) : valueAt (l ++ m) t = (valueAt l t).or (valueAt m t) := by
  induction l with
  | nil => rfl
  | cons p l ih =>
    rw [cons_append, valueAt, valueAt, ih]
    split <;> rfl

theorem cell_of_none (a : Option α) : of a (none : Option β) = a.map one := by
  cases a <;> rfl

theorem cell_none_of (b : Option β) : of (none : Option α) b = b.map two := by
  cases b <;> rfl

theorem valueAt_before_none (h : t < min p.lo q.lo ∨ max p.lo q.lo ≤ t) : valueAt (before p q) t = none := by
  rw [before]
  split
  · rw [valueAt, if_neg (by simp only; omega)]; rfl
  · split
    · rw [valueAt, if_neg (by simp only; omega)]; rfl
    · rfl

theorem valueAt_cons (hl : SortedFrom n (p :: l)) (ht : t < p.hi) :
    valueAt (p :: l) t = if p.lo ≤ t then some p.val else none := by
  rw [valueAt, valueAt_of_lt hl.2.2 ht]
  by_cases h : p.lo ≤ t
  · rw [if_pos ⟨h, ht⟩, if_pos h]
  · rw [if_neg (by omega), if_neg h]

/-- Before the end of the first of two meeting stretches. -/
theorem valueAt_before (hl : SortedFrom n (p :: l)) (hm : SortedFrom n (q :: m)) (ht : t < min p.hi q.hi) :
    (valueAt (before p q) t).or (if max p.lo q.lo ≤ t ∧ t < min p.hi q.hi then some (both p.val q.val) else none) =
      of (valueAt (p :: l) t) (valueAt (q :: m) t) := by
  rw [valueAt_cons hl (by omega), valueAt_cons hm (by omega)]
  by_cases hpt : p.lo ≤ t <;> by_cases hqt : q.lo ≤ t
  · -- from the later begin on, the position is in both
    have hb : valueAt (before p q) t = none := valueAt_before_none (by omega)
    rw [hb, if_pos ⟨by omega, ht⟩, if_pos hpt, if_pos hqt]
    rfl
  · have hb : before p q = [⟨p.lo, q.lo, .one p.val⟩] := by rw [before, if_pos (by omega)]
    rw [hb, valueAt, if_pos ⟨hpt, by simp only; omega⟩, if_pos hpt, if_neg hqt]
    rfl
  · have hb : before p q = [⟨q.lo, p.lo, .two q.val⟩] := by
      rw [before, if_neg (by omega), if_pos (by omega)]
    rw [hb, valueAt, if_pos ⟨hqt, by simp only; omega⟩, if_neg hpt, if_pos hqt]
    rfl
  · have hb : valueAt (before p q) t = none := valueAt_before_none (by omega)
    rw [hb, if_neg (by omega), if_neg hpt, if_neg hqt]
    rfl

variable (fuel : Nat)

theorem valueAt_walk (hl : SortedFrom n l) (hm : SortedFrom n m) (hfuel : l.length + m.length ≤ fuel) (t : Int) :
    valueAt (walk fuel l m) t = of (valueAt l t) (valueAt m t) := by
  induction fuel generalizing n l m with
  | zero =>
    have hl0 : l = [] := length_eq_zero_iff.mp (by omega)
    have hm0 : m = [] := length_eq_zero_iff.mp (by omega)
    subst hl0 hm0
    rfl
  | succ fuel ih =>
    match l, m with
    | l, [] => rw [walk, valueAt_map, valueAt, cell_of_none]
    | [], q :: m => rw [walk, valueAt_map, valueAt, cell_none_of]; exact cons_ne_nil _ _
    | p :: l, q :: m =>
      simp only [length_cons] at hfuel
      rw [walk]
      split
      · -- the first stretch of `l` lies before all of `m`
        rename_i hlt
        have hm' : SortedFrom p.hi (q :: m) := ⟨hlt, hm.2⟩
        rw [valueAt, ih hl.2.2 hm' (by simp only [length_cons]; omega)]
        rw [valueAt.eq_2 (p := p)]
        split
        · rename_i hin
          rw [valueAt_of_lt hm' hin.2]
          rfl
        · rfl
      split
      · rename_i hlt
        have hl' : SortedFrom q.hi (p :: l) := ⟨hlt, hl.2⟩
        rw [valueAt, ih hl' hm.2.2 (by simp only [length_cons]; omega)]
        simp only
        rw [valueAt.eq_2 (p := q)]
        split
        · rename_i hin
          rw [valueAt_of_lt hl' hin.2]
          rfl
        · rfl
      rename_i hpq hqp
      have hpq : q.lo < p.hi := by omega
      have hqp : p.lo < q.hi := by omega
      obtain ⟨hla, hma⟩ := sortedFrom_after_both hl hm
      have hlen := length_after_add_le p l q m
      rw [valueAt_append, valueAt, ih hla hma (by omega)]
      simp only
      by_cases ht : t < min p.hi q.hi
      · rw [valueAt_of_lt hla ht, valueAt_of_lt hma ht]
        exact valueAt_before hl hm ht
      · have ht' : min q.hi p.hi ≤ t := by omega
        rw [valueAt_before_none (by have := hl.2.1; have := hm.2.1; omega), if_neg (by omega),
          valueAt_after hqp (by omega), valueAt_after hpq ht']
        rfl

theorem valueAt_overlay (hl : SortedFrom n l) (hm : SortedFrom n m) (t : Int) :
    valueAt (overlay l m) t = of (valueAt l t) (valueAt m t) :=
  valueAt_walk _ hl hm (Nat.le_refl _) t

theorem sortedFrom_before {rest : List (Piece (Cell α β))}
    (hp : n ≤ p.lo) (hq : n ≤ q.lo) (h : SortedFrom (max p.lo q.lo) rest) : SortedFrom n (before p q ++ rest) := by
  rw [before]
  split
  · exact ⟨hp, by assumption, h.mono (by simp only; omega)⟩
  · split
    · exact ⟨hq, by assumption, h.mono (by simp only; omega)⟩
    · exact h.mono (by omega)

section
variable (hl : SortedFrom n l) (hm : SortedFrom n m)
include hl hm

theorem sortedFrom_walk : SortedFrom n (walk fuel l m) := by
  induction fuel generalizing n l m with
  | zero => exact True.intro
  | succ fuel ih =>
    match l, m with
    | l, [] => rw [walk]; exact sortedFrom_map _ hl
    | [], q :: m => rw [walk]; exacts [sortedFrom_map _ hm, cons_ne_nil _ _]
    | p :: l, q :: m =>
      rw [walk]
      split
      · rename_i hlt
        exact ⟨hl.1, hl.2.1, ih hl.2.2 ⟨hlt, hm.2⟩⟩
      split
      · rename_i hlt
        exact ⟨hm.1, hm.2.1, ih ⟨hlt, hl.2⟩ hm.2.2⟩
      rename_i hpq hqp
      obtain ⟨hla, hma⟩ := sortedFrom_after_both hl hm
      have := hl.2.1
      have := hm.2.1
      apply sortedFrom_before hl.1 hm.1
      exact ⟨Int.le_refl _, by simp only; omega, ih hla hma⟩

theorem sortedFrom_overlay : SortedFrom n (overlay l m) :=
  sortedFrom_walk _ hl hm

/-- The labels of the cells are those of the two lists. -/
theorem all_overlay {P : α → Prop} {Q : β → Prop} (hP : ∀ p ∈ l, P p.val)
    (hQ : ∀ q ∈ m, Q q.val) : ∀ c ∈ overlay l m, c.val.All P Q := by
  intro c hc
  have hsorted := sortedFrom_overlay hl hm
  have hval := valueAt_of_mem hsorted hc (Int.le_refl _) (hsorted.le_of_mem c hc).2
  rw [valueAt_overlay hl hm] at hval
  have hone : ∀ a, valueAt l c.lo = some a → P a := by
    intro a ha
    obtain ⟨p, hp, _, _, rfl⟩ := mem_of_valueAt ha
    exact hP p hp
  have htwo : ∀ b, valueAt m c.lo = some b → Q b := by
    intro b hb
    obtain ⟨q, hq, _, _, rfl⟩ := mem_of_valueAt hb
    exact hQ q hq
  cases ha : valueAt l c.lo <;> cases hb : valueAt m c.lo <;> rw [ha, hb] at hval
  · exact absurd hval nofun
  all_goals rw [← some.inj hval]
  · exact htwo _ hb
  · exact hone _ ha
  · exact ⟨hone _ ha, htwo _ hb⟩

end

/-! ### The ends of the cells -/

theorem ends_before (hp : C p.lo) (hq : C q.lo) : Ends C (before p q) := by
  rw [before]
  split
  · exact forall_mem_singleton.mpr ⟨hp, hq⟩
  · split
    · exact forall_mem_singleton.mpr ⟨hq, hp⟩
    · exact nofun

theorem ends_cons (hlo : C p.lo) (hhi : C p.hi) (h : Ends C l) : Ends C (p :: l) :=
  forall_mem_cons.mpr ⟨⟨hlo, hhi⟩, h⟩

theorem ends_after (h : Ends C (p :: l)) (hcut : C cut) : Ends C (after p l cut) := by
  obtain ⟨hp, hl⟩ := forall_mem_cons.mp h
  rw [after]
  split
  · exact hl
  · exact ends_cons hcut hp.2 hl

theorem ends_map (f : α → γ) (h : Ends C l) : Ends C (l.map fun p => (⟨p.lo, p.hi, f p.val⟩ : Piece γ)) :=
  forall_mem_map.mpr h

theorem ends_walk (hl : Ends C l) (hm : Ends C m) : Ends C (walk fuel l m) := by
  induction fuel generalizing l m with
  | zero => exact nofun
  | succ fuel ih =>
    match l, m with
    | l, [] => rw [walk]; exact ends_map _ hl
    | [], q :: m => rw [walk]; exacts [ends_map _ hm, cons_ne_nil _ _]
    | p :: l, q :: m =>
      obtain ⟨hplo, hphi⟩ := hl p mem_cons_self
      obtain ⟨hqlo, hqhi⟩ := hm q mem_cons_self
      rw [walk]
      split
      · exact ends_cons hplo hphi (ih (forall_mem_cons.mp hl).2 hm)
      split
      · exact ends_cons hqlo hqhi (ih hl (forall_mem_cons.mp hm).2)
      have hmax : C (max p.lo q.lo) := by
        rw [Int.max_def]; split <;> assumption
      have hmin : C (min p.hi q.hi) := by
        rw [Int.min_def]; split <;> assumption
      exact forall_mem_append.mpr ⟨ends_before hplo hqlo,
        ends_cons hmax hmin (ih (ends_after hl hqhi) (ends_after hm hphi))⟩

theorem ends_overlay (hl : Ends C l) (hm : Ends C m) : Ends C (overlay l m) :=
  ends_walk _ hl hm

/-! ### How many cells there are -/

theorem countP_before_isBoth (p : Piece α) (q : Piece β) : (before p q).countP (fun c => c.val.isBoth) = 0 := by
  rw [before]
  split
  · rfl
  · split <;> rfl

theorem countP_isBoth_walk (l : List (Piece α)) (m : List (Piece β)) :
    (walk fuel l m).countP (fun c => c.val.isBoth) ≤ l.length + m.length - 1 := by
  induction fuel generalizing l m with
  | zero => simp [walk]
  | succ fuel ih =>
    match l, m with
    | l, [] | [], q :: m => simp [walk, comp_def, isBoth]
    | p :: l, q :: m =>
      rw [walk]
      split
      · have := ih l (q :: m)
        simp only [length_cons] at *
        rw [countP_cons_of_neg (by simp [isBoth])]
        omega
      split
      · have := ih (p :: l) m
        simp only [length_cons] at *
        rw [countP_cons_of_neg (by simp [isBoth])]
        omega
      have := ih (after p l q.hi) (after q m p.hi)
      have := length_after_add_le p l q m
      simp only [length_cons]
      rw [countP_append, countP_before_isBoth, countP_cons_of_pos (by simp [isBoth])]
      omega

/-- Cells in both lists: each uses up a stretch, and the last one two. -/
theorem countP_isBoth_overlay (l : List (Piece α)) (m : List (Piece β)) :
    (overlay l m).countP (fun c => c.val.isBoth) ≤ l.length + m.length - 1 :=
  countP_isBoth_walk _ l m

/-- The first stretch of `m` has begun where the first of `l` begins. -/
def begun : List (Piece α) → List (Piece β) → Nat
  | _, [] => 0
  | [], _ :: _ => 1
  | p :: _, q :: _ => if q.lo ≤ p.lo then 1 else 0

theorem begun_le_one (l : List (Piece α)) (m : List (Piece β)) : begun l m ≤ 1 := by
  match l, m with
  | _, [] => simp [begun]
  | [], _ :: _ => simp [begun]
  | p :: _, q :: _ => rw [begun]; split <;> omega

theorem countP_before_inOne (p : Piece α) (l : List (Piece α)) (q : Piece β) (m : List (Piece β)) :
    (before p q).countP (fun c => c.val.inOne) + begun (p :: l) (q :: m) = 1 := by
  rw [before, begun]
  by_cases h : p.lo < q.lo
  · rw [if_pos h, if_neg (by omega)]
    rfl
  · rw [if_neg h, if_pos (show q.lo ≤ p.lo by omega)]
    split <;> rfl

/-- What is left of a stretch of `m` has begun where the next of `l` begins. -/
theorem begun_after (hl : SortedFrom n (p :: l)) (h : p.hi < q.hi) : begun (after p l q.hi) (after q m p.hi) = 1 := by
  rw [after, if_pos (by omega), after, if_neg (by omega)]
  cases l with
  | nil => rfl
  | cons p' l => rw [begun, if_pos hl.2.2.1]

theorem countP_inOne_walk (hl : SortedFrom n l) (hm : SortedFrom n m) :
    (walk fuel l m).countP (fun c => c.val.inOne) + begun l m ≤ l.length + 2 * m.length := by
  induction fuel generalizing n l m with
  | zero =>
    have := begun_le_one l m
    cases m with
    | nil => simp [walk, begun]
    | cons q m => simp only [walk, countP_nil, length_cons]; omega
  | succ fuel ih =>
    match l, m with
    | l, [] => simp [walk, comp_def, inOne, begun]
    | [], q :: m =>
      simp [walk, comp_def, inOne, begun]
      omega
    | p :: l, q :: m =>
      have hb1 := begun_le_one (p :: l) (q :: m)
      rw [walk]
      split
      · rename_i hlt
        have hplo := hl.2.1
        have := ih hl.2.2 (show SortedFrom p.hi (q :: m) from ⟨hlt, hm.2⟩)
        rw [countP_cons_of_pos (by simp [inOne]), begun, if_neg (by omega)]
        simp only [length_cons] at *
        omega
      split
      · rename_i hlt
        have := ih (show SortedFrom q.hi (p :: l) from ⟨hlt, hl.2⟩) hm.2.2
        rw [countP_cons_of_neg (by simp [inOne])]
        simp only [length_cons] at *
        omega
      obtain ⟨hla, hma⟩ := sortedFrom_after_both hl hm
      have hrest := ih hla hma
      have hbefore := countP_before_inOne p l q m
      rw [countP_append, countP_cons_of_pos (by simp [inOne])]
      simp only [length_cons]
      by_cases h : p.hi < q.hi
      · -- the rest of the stretch of `m` can begin no second cell
        rw [begun_after hl h] at hrest
        have hl' : (after p l q.hi).length = l.length := by rw [after, if_pos (by omega)]
        have := length_after_le q m p.hi
        omega
      · have hm' : (after q m p.hi).length = m.length := by rw [after, if_pos (by omega)]
        have := length_after_le p l q.hi
        omega

/-- Cells in the first list: one for each of its stretches, and two more for
each stretch of the second. -/
theorem countP_inOne_overlay (hl : SortedFrom n l) (hm : SortedFrom n m) :
    (overlay l m).countP (fun c => c.val.inOne) ≤ l.length + 2 * m.length := by
  have := countP_inOne_walk (l.length + m.length) hl hm
  rw [overlay]
  omega

end GemDroid.Lib.Overlay
