import GemDroid.Skin.Rows

/-! The points of the region that an operator leaves. In every line they are the
first run of what the two regions and the flags give for that line, whether the
result is kept as empty, as a rectangle or as runs. So an operator is right
exactly if every line of the set that it should build is one run, as long as its
bands fit the temporary store. -/
namespace GemDroid.Skin

variable {bands runs : List Band} {n x y : Int} {box : Box}

open Lib.Overlay List Option

/-- Below the sentinel in magnitude. -/
def InRange (c : Int) : Prop := -0x7fff < c ∧ c < 0x7fff

instance (c : Int) : Decidable (InRange c) := inferInstanceAs (Decidable (_ ∧ _))

def IsInt (n : Int) : Prop := -2 ^ 31 ≤ n ∧ n < 2 ^ 31

instance (n : Int) : Decidable (IsInt n) := inferInstanceAs (Decidable (_ ∧ _))

/-- Runs as the format has them: bands and spans in increasing order, no scanline empty. The
coordinates have `C`, and `n` is below them. -/
structure Grammar (n : Int) (C : Int → Prop) (bands : List Band) : Prop where
  sorted : SortedFrom n bands
  ends : Ends C bands
  filled : ∀ b ∈ bands, b.val ≠ []
  rowSorted : ∀ b ∈ bands, SortedFrom n b.val
  rowEnds : ∀ b ∈ bands, Ends C b.val

/-- Every coordinate is below the sentinel in magnitude. -/
abbrev WellFormed (bands : List Band) : Prop := Grammar (-0x7fff) InRange bands

/-! ### The bounds -/

variable {l r : Int} {b : Band}

theorem coalesceSpans_eq_single {pleft pright : Int} {spans : List Span}
    (h : coalesceSpans pleft pright spans = [⟨l, r, ()⟩]) : pleft = l ∧ lastRight pright spans = r := by
  induction spans generalizing pright with
  | nil =>
    obtain ⟨hspan, _⟩ := cons.inj h
    exact ⟨congrArg Piece.lo hspan, congrArg Piece.hi hspan⟩
  | cons s spans ih =>
    rw [coalesceSpans] at h
    rw [lastRight]
    split at h
    · rename_i heq
      rw [if_pos heq]
      exact ih h
    · exact absurd (cons.inj h).2 (coalesceSpans_ne_nil _ _ _)

theorem minmax_of_single {prev result : Band}
    (hone : coalesceBands prev bands = [result]) (hprev : prev.val = [⟨l, r, ()⟩])
    (hsorted : SortedFrom n (prev :: bands)) (hfilled : ∀ b ∈ bands, b.val ≠ []) :
    result.val = [⟨l, r, ()⟩] ∧ bands.foldl minmaxBand ⟨l, prev.lo, r, prev.hi⟩ = ⟨l, result.lo, r, result.hi⟩ := by
  induction bands generalizing prev n with
  | nil =>
    obtain ⟨rfl, _⟩ := cons.inj hone
    exact ⟨hprev, rfl⟩
  | cons b bands ih =>
    obtain ⟨hn, hlt, hle, hblt, hs⟩ := hsorted
    rw [coalesceBands] at hone
    split at hone
    · rename_i heq
      obtain ⟨s, spans, hval⟩ := exists_cons_of_ne_nil (hfilled b mem_cons_self)
      have hspans : coalesceSpans s.lo s.hi spans = [⟨l, r, ()⟩] := by
        have := heq.2
        rw [hval, hprev] at this
        exact this.symm
      obtain ⟨hl, hr⟩ := coalesceSpans_eq_single hspans
      have hbox : minmaxBand ⟨l, prev.lo, r, prev.hi⟩ b = ⟨l, prev.lo, r, b.hi⟩ := by
        rw [minmaxBand, hval]
        simp only [Box.mk.injEq]
        omega
      rw [foldl_cons, hbox]
      have hsorted : SortedFrom n (⟨prev.lo, b.hi, prev.val⟩ :: bands) :=
        ⟨hn, by simp only; omega, hs⟩
      exact ih hone hprev hsorted (forall_mem_cons.mp hfilled).2
    · exact absurd (cons.inj hone).2 (coalesceBands_ne_nil _ _)

structure Covers (box : Box) (b : Band) : Prop where
  top : box.y1 ≤ b.lo
  bottom : b.hi ≤ box.y2
  left : ∀ s spans, b.val = s :: spans → box.x1 ≤ s.lo
  right : ∀ s spans, b.val = s :: spans → lastRight s.hi spans ≤ box.x2

theorem covers_minmaxBand (box : Box) (b : Band) : Covers (minmaxBand box b) b := by
  cases hval : b.val with
  | nil =>
    rw [minmaxBand, hval]
    exact ⟨by simp only; omega, by simp only; omega, by simp [hval], by simp [hval]⟩
  | cons s spans =>
    rw [minmaxBand, hval]
    refine ⟨by simp only; omega, by simp only; omega, ?_, ?_⟩
    all_goals
      intro s' spans' h
      obtain ⟨rfl, rfl⟩ := cons.inj (hval.symm.trans h)
      simp only
      omega

theorem Covers.minmaxBand (h : Covers box b) (c : Band) : Covers (minmaxBand box c) b := by
  have hbox : (Skin.minmaxBand box c).x1 ≤ box.x1 ∧ (Skin.minmaxBand box c).y1 ≤ box.y1 ∧
      box.x2 ≤ (Skin.minmaxBand box c).x2 ∧ box.y2 ≤ (Skin.minmaxBand box c).y2 := by
    rw [Skin.minmaxBand]
    split <;> (simp only; omega)
  obtain ⟨hx1, hy1, hx2, hy2⟩ := hbox
  exact ⟨Int.le_trans hy1 h.top, Int.le_trans h.bottom hy2, fun s spans hs => Int.le_trans hx1 (h.left s spans hs),
    fun s spans hs => Int.le_trans (h.right s spans hs) hx2⟩

theorem covers_foldl (h : Covers box b ∨ b ∈ bands) : Covers (bands.foldl minmaxBand box) b := by
  induction bands generalizing box with
  | nil => exact h.resolve_right not_mem_nil
  | cons c bands ih =>
    rw [foldl_cons]
    apply ih
    obtain h | h := h
    · exact .inl (h.minmaxBand c)
    · cases mem_cons.mp h with
      | inl heq => exact .inl (heq ▸ covers_minmaxBand box c)
      | inr h => exact .inr h

/-! ### The result of an operator, point by point -/

theorem four_le_runsGetCount (h : runs ≠ []) : 4 ≤ runsGetCount runs := by
  obtain ⟨b, runs, rfl⟩ := exists_cons_of_ne_nil h
  rw [runsGetCount, map_cons, sum_cons, bandRuns]
  omega

theorem eq_single_of_runsGetCount (h : runsGetCount runs = 6) : ∃ b s, runs = [b] ∧ b.val = [s] := by
  match runs with
  | [] => exact absurd h (by decide)
  | [b] =>
    have hlen : b.val.length = 1 := by
      simp only [runsGetCount, bandRuns, map_cons, map_nil, sum_cons, sum_nil] at h
      omega
    obtain ⟨s, hs⟩ := length_eq_one_iff.mp hlen
    exact ⟨b, s, rfl, hs⟩
  | b :: c :: runs =>
    simp only [runsGetCount, bandRuns, map_cons, sum_cons] at h
    omega

theorem runsCoalesce_ne_nil (h : bands ≠ []) : runsCoalesce bands ≠ [] := by
  obtain ⟨b, bands, rfl⟩ := exists_cons_of_ne_nil h
  exact coalesceBands_ne_nil _ _

theorem skinRectContains_box {t b : Int} (hl : InRange l) (hr : InRange r) (ht : InRange t)
    (hb : InRange b) (hlr : l < r) (htb : t < b) (hx : IsInt x) (hy : IsInt y) :
    skinRectContains (skinBoxToRect ⟨l, t, r, b⟩) x y = true ↔ (l ≤ x ∧ x < r) ∧ t ≤ y ∧ y < b := by
  simp only [InRange, IsInt] at *
  rw [skinRectContains, Bool.and_eq_true, decide_eq_true_eq, decide_eq_true_eq]
  simp only [skinBoxToRect, unsigned]
  constructor
  · intro h
    omega
  · intro h
    omega

theorem scanlineContains_runsCoalesce {C : Int → Prop} (h : Grammar n C bands) (x y : Int) :
    ((valueAt (runsCoalesce bands) y).map (scanlineContains · x)).getD false =
      ((valueAt bands y).map (firstRun · x)).getD false := by
  rw [valueAt_runsCoalesce h.sorted]
  cases hval : valueAt bands y with
  | none => rfl
  | some spans =>
    obtain ⟨b, hb, _, _, rfl⟩ := mem_of_valueAt hval
    exact scanlineContains_runsCoalesceBand (h.rowSorted b hb) x

section
variable (h : WellFormed bands)
include h

theorem bounds_of_single {s : Span} (hruns : runsCoalesce bands = [b]) (hval : b.val = [s]) :
    bands.foldl minmaxBand minmaxInit = ⟨s.lo, b.lo, s.hi, b.hi⟩ := by
  cases bands with
  | nil => exact absurd hruns.symm (cons_ne_nil _ _)
  | cons c bands =>
    obtain ⟨s', spans, hc⟩ := exists_cons_of_ne_nil (h.filled c mem_cons_self)
    have hends := h.ends c mem_cons_self
    have hrow := h.rowEnds c mem_cons_self
    rw [hc] at hrow
    have hs' := hrow s' mem_cons_self
    have hlast : InRange (lastRight s'.hi spans) :=
      lastRight_ends hs'.2 (forall_mem_cons.mp hrow).2
    have hfirst : minmaxBand minmaxInit c = ⟨s'.lo, c.lo, lastRight s'.hi spans, c.hi⟩ := by
      simp only [InRange] at hends hs' hlast
      rw [minmaxBand, hc]
      simp only [minmaxInit, Box.mk.injEq]
      omega
    -- the first band is already the one span, or there would be two in the end
    have hsame : b.val = runsCoalesceBand c.val := by
      have hmem := valueAt_runsCoalesce h.sorted c.lo
      rw [hruns, valueAt_of_mem h.sorted mem_cons_self (Int.le_refl _) (h.sorted.2.1)] at hmem
      obtain ⟨d, hd, _, _, hdval⟩ := mem_of_valueAt hmem
      rw [mem_singleton.mp hd] at hdval
      exact hdval
    have hspan : coalesceSpans s'.lo s'.hi spans = [⟨s.lo, s.hi, ()⟩] := by
      rw [hc, hval] at hsame
      exact hsame.symm
    obtain ⟨hlo, hhi⟩ := coalesceSpans_eq_single hspan
    obtain ⟨_, hbox⟩ := minmax_of_single (l := s.lo) (r := s.hi) hruns
      (by rw [hc]; exact hspan) (show SortedFrom (-0x7fff) _ from h.sorted)
      (forall_mem_cons.mp h.filled).2
    rw [foldl_cons, hfirst, hlo, hhi]
    exact hbox

/-- The result of an operator holds a point exactly if it is in the first run of
its line. -/
theorem contains_regionOperatorDone (hx : IsInt x) (hy : IsInt y) :
    skinRegionContains (regionOperatorDone bands) x y = ((valueAt bands y).map (firstRun · x)).getD false := by
  cases bands with
  | nil => rfl
  | cons c bands =>
    have hne := runsCoalesce_ne_nil (cons_ne_nil c bands)
    have hcount := four_le_runsGetCount hne
    have hsorted := sortedFrom_runsCoalesce h.sorted
    rw [← scanlineContains_runsCoalesce h, regionOperatorDone, if_neg (by omega)]
    split
    · rename_i hsix
      obtain ⟨b, s, hruns, hval⟩ := eq_single_of_runsGetCount hsix
      have hb : b ∈ runsCoalesce (c :: bands) := by rw [hruns]; exact mem_singleton.mpr rfl
      obtain ⟨d, hd, hdval⟩ := val_mem_runsCoalesce b hb
      have hbends := ends_runsCoalesce h.ends b hb
      have hblt := (hsorted.le_of_mem b hb).2
      obtain ⟨s', spans, hs'⟩ := exists_cons_of_ne_nil (h.filled d hd)
      have hrow := h.rowEnds d hd
      have hdsorted := h.rowSorted d hd
      rw [hs'] at hrow hdsorted
      have hspan : coalesceSpans s'.lo s'.hi spans = [⟨s.lo, s.hi, ()⟩] := by
        rw [hval, hs'] at hdval
        exact hdval.symm
      obtain ⟨hlo, hhi⟩ := coalesceSpans_eq_single hspan
      have hslo : InRange s.lo := hlo ▸ (hrow s' mem_cons_self).1
      have hshi : InRange s.hi := hhi ▸ lastRight_ends (hrow s' mem_cons_self).2 (forall_mem_cons.mp hrow).2
      have hlast := le_lastRight hdsorted.2.2
      have hslt := hdsorted.2.1
      rw [skinRegionContains]
      rw [bounds_of_single h hruns hval, hruns, Bool.eq_iff_iff,
        skinRectContains_box hslo hshi hbends.1 hbends.2 (by omega) hblt hx hy, valueAt]
      by_cases hin : b.lo ≤ y ∧ y < b.hi
      · rw [if_pos hin, hval]
        simp only [map_some, getD_some, scanlineContains]
        split
        · simp only [Bool.false_eq_true, iff_false]
          omega
        split
        · simp only [iff_true]
          omega
        · simp only [Bool.false_eq_true, iff_false]
          omega
      · rw [if_neg hin]
        simp only [valueAt, map_none, getD_none, Bool.false_eq_true, iff_false]
        omega
    · rw [skinRegionContains]
      simp only
      rw [runsFindY_eq_valueAt hsorted]
      cases valueAt (runsCoalesce (c :: bands)) y <;> rfl

end

end GemDroid.Skin
