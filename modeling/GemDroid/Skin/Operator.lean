import GemDroid.Skin.RegionSets

/-! The operator on regions whose scanlines are single spans. Point by point its
bands hold what the flags pick; the result is right exactly if every line of that
is one run, and then its scanlines are single spans again. What is written fits
the temporary store for an intersection always and for a difference whose lines
are single runs; for a union it can be too much. -/
namespace GemDroid.Skin

variable {runs1 runs2 : List Band}

variable {x y n a b : Int} {C : Int → Prop} {s t : Span} {wanted : Wanted}

open Lib.Overlay Option
open List hiding after

/-! ### Regions whose scanlines are single spans -/

structure Plain (runs : List Band) : Prop extends Grammar (-0x7fff) InRange runs where
  single : ∀ b ∈ runs, b.val.length = 1

structure PlainRegion (r : Region) : Prop where
  runs : Plain (operatorRuns r)
  filled : regionIsEmpty r = false → operatorRuns r ≠ []
  bounds : ∀ b ∈ operatorRuns r, Covers (skinBoxFromRect r.bounds) b

/-- The point lies in a span of the band of its line. -/
def inBands (runs : List Band) (x y : Int) : Bool :=
  ((valueAt runs y).map (inRow · x)).getD false

variable {spans : List Span} {r : Region} {c : Int} {bands : List Band}

theorem scanlineContains_eq_inRow (h : SortedFrom n spans) (x : Int) : scanlineContains spans x = inRow spans x := by
  induction spans generalizing n with
  | nil => rfl
  | cons s spans ih =>
    obtain ⟨_, hlt, hs⟩ := h
    rw [scanlineContains, inRow_cons, ih hs]
    by_cases hlo : x < s.lo
    · rw [if_pos hlo, decide_eq_false (by omega), inRow_of_lt hs (by omega)]
      rfl
    rw [if_neg hlo]
    by_cases hhi : x < s.hi
    · rw [if_pos hhi, decide_eq_true ⟨by omega, hhi⟩]
      rfl
    · rw [if_neg hhi, decide_eq_false (by omega)]
      rfl

theorem skinBoxFromRect_toRect (box : Box) : skinBoxFromRect (skinBoxToRect box) = box := by
  simp [skinBoxFromRect, skinBoxToRect]

theorem runsSetRect_toRect (box : Box) :
    runsSetRect (skinBoxToRect box) = [⟨box.y1, box.y2, [⟨box.x1, box.x2, ()⟩]⟩] := by
  have hx : box.x1 + (box.x2 - box.x1) = box.x2 := by omega
  have hy : box.y1 + (box.y2 - box.y1) = box.y2 := by omega
  rw [runsSetRect, skinBoxToRect]
  simp [hx, hy]

theorem toRect_fromRect (r : Rect) : skinBoxToRect (skinBoxFromRect r) = r := by
  simp [skinBoxFromRect, skinBoxToRect]

theorem contains_plain (h : Plain (operatorRuns r)) (hx : IsInt x)
    (hy : IsInt y) : skinRegionContains r x y = inBands (operatorRuns r) x y := by
  cases hruns : r.runs with
  | empty =>
    rw [skinRegionContains, operatorRuns, hruns]
    rfl
  | rect =>
    have hop : operatorRuns r = runsSetRect (skinBoxToRect (skinBoxFromRect r.bounds)) := by
      rw [toRect_fromRect, operatorRuns, hruns]
    rw [runsSetRect_toRect] at hop
    rw [hop] at h
    have hends := h.ends _ mem_cons_self
    have hrow := h.rowEnds _ mem_cons_self _ mem_cons_self
    have hlt := h.sorted.2.1
    have hrlt := (h.rowSorted _ mem_cons_self).2.1
    rw [skinRegionContains, hruns]
    rw [← toRect_fromRect r.bounds, Bool.eq_iff_iff,
      skinRectContains_box hrow.1 hrow.2 hends.1 hends.2 hrlt hlt hx hy, inBands, hop,
      valueAt]
    simp only
    by_cases hin : (skinBoxFromRect r.bounds).y1 ≤ y ∧ y < (skinBoxFromRect r.bounds).y2
    · rw [if_pos hin, map_some, getD_some, inRow_cons]
      simp only [inRow, valueAt, isSome_none, Bool.or_false, decide_eq_true_eq]
      exact and_iff_left hin
    · rw [if_neg hin]
      simp only [valueAt, map_none, getD_none, Bool.false_eq_true, iff_false]
      exact fun hand => hin hand.2
  | complex runs =>
    have hop : operatorRuns r = runs := by rw [operatorRuns, hruns]
    rw [hop] at h
    rw [skinRegionContains, hruns]
    simp only
    rw [runsFindY_eq_valueAt h.sorted, inBands, hop]
    cases hval : valueAt runs y with
    | none => rfl
    | some spans =>
      obtain ⟨b, hb, _, _, rfl⟩ := mem_of_valueAt hval
      exact scanlineContains_eq_inRow (h.rowSorted b hb) x

theorem IsInt.between (ha : IsInt a) (hb : IsInt b) (hac : a ≤ c) (hcb : c ≤ b) : IsInt c :=
  ⟨Int.le_trans ha.1 hac, Int.lt_of_le_of_lt hcb hb.2⟩

theorem isInt_of_inRange (h : InRange c) : IsInt c := by
  simp only [InRange, IsInt] at *
  omega

theorem isInt_of_between (ha : InRange a) (hb : InRange b) (hac : a ≤ c) (hcb : c < b) : IsInt c :=
  (isInt_of_inRange ha).between (isInt_of_inRange hb) hac (Int.le_of_lt hcb)

theorem isInt_of_inRow (h : Ends InRange spans) (hx : inRow spans x = true) : IsInt x := by
  obtain ⟨v, hv⟩ := isSome_iff_exists.mp hx
  obtain ⟨s, hs, hlo, hhi, _⟩ := mem_of_valueAt hv
  exact isInt_of_between (h s hs).1 (h s hs).2 hlo hhi

theorem exists_point (h : PlainRegion r) (hne : regionIsEmpty r = false) :
    ∃ x y, IsInt x ∧ IsInt y ∧ skinRegionContains r x y = true := by
  obtain ⟨b, runs, hop⟩ := exists_cons_of_ne_nil (h.filled hne)
  have hplain := h.runs
  have hb : b ∈ operatorRuns r := hop ▸ mem_cons_self
  obtain ⟨s, spans, hval⟩ := exists_cons_of_ne_nil (hplain.filled b hb)
  have hrow := hplain.rowEnds b hb
  have hrowSorted := hplain.rowSorted b hb
  rw [hval] at hrow hrowSorted
  have hy := isInt_of_inRange (hplain.ends b hb).1
  have hx := isInt_of_inRange (hrow s mem_cons_self).1
  refine ⟨s.lo, b.lo, hx, hy, ?_⟩
  rw [contains_plain hplain hx hy, inBands,
    valueAt_of_mem hplain.sorted hb (Int.le_refl _) (hplain.sorted.le_of_mem b hb).2, hval,
    map_some, getD_some, inRow_cons, decide_eq_true ⟨Int.le_refl _, hrowSorted.2.1⟩]
  rfl

theorem in_bounds (h : PlainRegion r) (hx : IsInt x) (hy : IsInt y) (hin : skinRegionContains r x y = true) :
    ((skinBoxFromRect r.bounds).x1 ≤ x ∧ x < (skinBoxFromRect r.bounds).x2) ∧
      (skinBoxFromRect r.bounds).y1 ≤ y ∧ y < (skinBoxFromRect r.bounds).y2 := by
  rw [contains_plain h.runs hx hy, inBands] at hin
  cases hval : valueAt (operatorRuns r) y with
  | none => rw [hval] at hin; exact absurd hin nofun
  | some spans =>
    obtain ⟨b, hb, hlo, hhi, rfl⟩ := mem_of_valueAt hval
    obtain ⟨s, hs⟩ := length_eq_one_iff.mp (h.runs.single b hb)
    have hcover := h.bounds b hb
    have hleft := hcover.left s [] hs
    have hright := hcover.right s [] hs
    have htop := hcover.top
    have hbottom := hcover.bottom
    rw [hval, hs, map_some, getD_some, inRow_cons] at hin
    simp only [inRow, valueAt, isSome_none, Bool.or_false, decide_eq_true_eq] at hin
    rw [lastRight] at hright
    omega

theorem disjoint_of_outside {r2 : Region} (h : PlainRegion r) (h2 : PlainRegion r2)
    (hout : skinRectContainsRect r.bounds r2.bounds = .outside) (hx : IsInt x)
    (hy : IsInt y) (hin : skinRegionContains r x y = true) : skinRegionContains r2 x y = false := by
  by_contra hin2
  have hb := in_bounds h hx hy hin
  have hb2 := in_bounds h2 hx hy (Bool.not_eq_false _ ▸ hin2)
  simp only [skinRectContainsRect] at hout
  split at hout
  · omega
  · split at hout <;> exact absurd hout nofun

/-! ### The bands of the operator -/

/-- What the flags pick for a point, from whether the two regions hold it. -/
def Wanted.choose (wanted : Wanted) : Bool → Bool → Bool
  | false, false => false
  | true, false => wanted.one
  | false, true => wanted.two
  | true, true => wanted.both

open Wanted

theorem inRow_commonSpans (wanted : Wanted) {spans1 spans2 : List Span}
    (h1 : SortedFrom n spans1) (h2 : SortedFrom n spans2) (x : Int) :
    inRow (commonSpans wanted spans1 spans2) x = wanted.choose (inRow spans1 x) (inRow spans2 x) := by
  obtain ⟨one, two, both⟩ := wanted
  rw [inRow, commonSpans, valueAt_keep _ (sortedFrom_overlay h1 h2), valueAt_overlay h1 h2, inRow, inRow]
  cases valueAt spans1 x with
  | none =>
    cases valueAt spans2 x with
    | none => rfl
    | some _ => cases two <;> rfl
  | some _ =>
    cases valueAt spans2 x with
    | none => cases one <;> rfl
    | some _ => cases both <;> rfl

/-- The bands that stay in the temporary store. -/
def filledBands (wanted : Wanted) (runs1 runs2 : List Band) : List Band :=
  (regionOperatorDo wanted runs1 runs2).filter fun b => decide (b.val ≠ [])

theorem inRow_filled (spans : List Span) (x : Int) :
    (((if decide (spans ≠ []) = true then some spans else none).map (inRow · x)).getD false) = inRow spans x := by
  cases spans <;> rfl

section Bands
variable (h1 : Grammar n C runs1) (h2 : Grammar n C runs2)
include h1 h2

theorem rows_regionOperatorDo : ∀ b ∈ regionOperatorDo wanted runs1 runs2, SortedFrom n b.val ∧ Ends C b.val := by
  intro b hb
  obtain ⟨c, hc, _, _, hval⟩ := mem_keep hb
  have hall := all_overlay (P := fun spans : List Span => SortedFrom n spans ∧ Ends C spans)
    (Q := fun spans : List Span => SortedFrom n spans ∧ Ends C spans) h1.sorted h2.sorted
    (fun p hp => ⟨h1.rowSorted p hp, h1.rowEnds p hp⟩)
    (fun q hq => ⟨h2.rowSorted q hq, h2.rowEnds q hq⟩) c hc
  cases hcell : c.val with
  | one spans | two spans =>
    rw [hcell, scanline] at hval
    rw [hcell] at hall
    split at hval
    · exact some.inj hval ▸ hall
    · exact absurd hval nofun
  | both spans1 spans2 =>
    rw [hcell, scanline] at hval
    rw [hcell] at hall
    obtain ⟨⟨hs1, he1⟩, hs2, he2⟩ := hall
    rw [← some.inj hval]
    exact ⟨sortedFrom_keep _ (sortedFrom_overlay hs1 hs2), ends_keep _ (ends_overlay he1 he2)⟩

theorem sorted_regionOperatorDo : SortedFrom n (regionOperatorDo wanted runs1 runs2) :=
  sortedFrom_keep _ (sortedFrom_overlay h1.sorted h2.sorted)

theorem grammar_filledBands : Grammar n C (filledBands wanted runs1 runs2) where
  sorted := by
    rw [filledBands, filter_eq_keep fun v => decide (v ≠ [])]
    exact sortedFrom_keep _ (sorted_regionOperatorDo h1 h2)
  ends b hb :=
    ends_keep _ (ends_overlay h1.ends h2.ends) b (mem_filter.mp hb).1
  filled b hb := of_decide_eq_true (mem_filter.mp hb).2
  rowSorted b hb := (rows_regionOperatorDo h1 h2 b (mem_filter.mp hb).1).1
  rowEnds b hb := (rows_regionOperatorDo h1 h2 b (mem_filter.mp hb).1).2

theorem inBands_filledBands (x y : Int) :
    inBands (filledBands wanted runs1 runs2) x y = wanted.choose (inBands runs1 x y) (inBands runs2 x y) := by
  rw [inBands, filledBands, filter_eq_keep fun v => decide (v ≠ []),
    valueAt_keep _ (sorted_regionOperatorDo h1 h2), regionOperatorDo,
    valueAt_keep _ (sortedFrom_overlay h1.sorted h2.sorted), valueAt_overlay h1.sorted h2.sorted,
    inBands, inBands]
  cases hone : valueAt runs1 y with
  | none =>
    cases htwo : valueAt runs2 y with
    | none => rfl
    | some spans2 =>
      obtain ⟨one, two, both⟩ := wanted
      simp only [Cell.of, bind_some, scanline, map_none, getD_none, map_some, getD_some]
      cases two with
      | false => cases inRow spans2 x <;> rfl
      | true =>
        rw [if_pos rfl, bind_some, inRow_filled]
        cases inRow spans2 x <;> rfl
  | some spans1 =>
    cases htwo : valueAt runs2 y with
    | none =>
      obtain ⟨one, two, both⟩ := wanted
      simp only [Cell.of, bind_some, scanline, map_none, getD_none, map_some, getD_some]
      cases one with
      | false => cases inRow spans1 x <;> rfl
      | true =>
        rw [if_pos rfl, bind_some, inRow_filled]
        cases inRow spans1 x <;> rfl
    | some spans2 =>
      obtain ⟨b1, hb1, _, _, rfl⟩ := mem_of_valueAt hone
      obtain ⟨b2, hb2, _, _, rfl⟩ := mem_of_valueAt htwo
      simp only [Cell.of, bind_some, scanline, map_some, getD_some]
      rw [inRow_filled, inRow_commonSpans wanted (h1.rowSorted b1 hb1) (h2.rowSorted b2 hb2)]

end Bands

/-! ### When the result is right -/

/-- Every line of the set is one run. -/
def RowsWhole (P : Int → Int → Bool) : Prop :=
  ∀ y x1 x2 x3 : Int, IsInt y → IsInt x1 → IsInt x3 → x1 ≤ x2 → x2 ≤ x3 → P x1 y = true → P x3 y = true → P x2 y = true

/-- The points that an operator on two regions should leave. -/
def chosen (wanted : Wanted) (r1 r2 : Region) (x y : Int) : Bool :=
  wanted.choose (skinRegionContains r1 x y) (skinRegionContains r2 x y)

variable {r1 r2 : Region}

section Plain
variable (h1 : Plain (operatorRuns r1)) (h2 : Plain (operatorRuns r2))
include h1 h2

theorem chosen_eq_inBands (hx : IsInt x) (hy : IsInt y) :
    chosen wanted r1 r2 x y = inBands (filledBands wanted (operatorRuns r1) (operatorRuns r2)) x y := by
  rw [inBands_filledBands h1.toGrammar h2.toGrammar, chosen, contains_plain h1 hx hy,
    contains_plain h2 hx hy]

theorem connected_of_rowsWhole (hwhole : RowsWhole (chosen wanted r1 r2)) {b : Band}
    (hb : b ∈ filledBands wanted (operatorRuns r1) (operatorRuns r2)) : Connected (inRow b.val) := by
  have hwf : WellFormed (filledBands wanted _ _) := grammar_filledBands h1.toGrammar h2.toGrammar
  have hy := isInt_of_inRange (hwf.ends b hb).1
  have hrow : ∀ x, IsInt x → chosen wanted r1 r2 x b.lo = inRow b.val x := by
    intro x hx
    rw [chosen_eq_inBands h1 h2 hx hy, inBands,
      valueAt_of_mem hwf.sorted hb (Int.le_refl _) (hwf.sorted.le_of_mem b hb).2, map_some,
      getD_some]
  intro x1 x2 x3 h12 h23 hin1 hin3
  have hx1 := isInt_of_inRow (hwf.rowEnds b hb) hin1
  have hx3 := isInt_of_inRow (hwf.rowEnds b hb) hin3
  have hx2 := hx1.between hx3 h12 h23
  rw [← hrow x2 hx2]
  exact hwhole b.lo x1 x2 x3 hy hx1 hx3 h12 h23 (by rw [hrow x1 hx1, hin1]) (by rw [hrow x3 hx3, hin3])

end Plain

theorem firstRun_connected (spans : List Span) : Connected (firstRun spans) := by
  intro x1 x2 x3 h12 h23 hin1 hin3
  cases spans with
  | nil => exact hin1
  | cons s spans =>
    rw [firstRun, decide_eq_true_eq] at *
    omega

theorem operatorDone_right_iff (wanted : Wanted) (h1 : Plain (operatorRuns r1)) (h2 : Plain (operatorRuns r2)) :
    (∀ x y, IsInt x → IsInt y →
      skinRegionContains (regionOperatorDone (filledBands wanted (operatorRuns r1) (operatorRuns r2))) x y =
        chosen wanted r1 r2 x y) ↔ RowsWhole (chosen wanted r1 r2) := by
  have hwf : WellFormed (filledBands wanted _ _) := grammar_filledBands h1.toGrammar h2.toGrammar
  constructor
  · intro hright y x1 x2 x3 hy hx1 hx3 h12 h23 hin1 hin3
    have hx2 := hx1.between hx3 h12 h23
    rw [← hright _ _ hx1 hy, contains_regionOperatorDone hwf hx1 hy] at hin1
    rw [← hright _ _ hx3 hy, contains_regionOperatorDone hwf hx3 hy] at hin3
    rw [← hright _ _ hx2 hy, contains_regionOperatorDone hwf hx2 hy]
    cases hval : valueAt (filledBands wanted (operatorRuns r1) (operatorRuns r2)) y with
    | none => rw [hval] at hin1; exact absurd hin1 nofun
    | some spans =>
      rw [hval] at hin1 hin3
      exact firstRun_connected spans x1 x2 x3 h12 h23 hin1 hin3
  · intro hwhole x y hx hy
    rw [contains_regionOperatorDone hwf hx hy, chosen_eq_inBands h1 h2 hx hy, inBands]
    cases hval : valueAt (filledBands wanted (operatorRuns r1) (operatorRuns r2)) y with
    | none => rfl
    | some spans =>
      obtain ⟨b, hb, _, _, rfl⟩ := mem_of_valueAt hval
      exact (firstRun_eq_inRow_iff (hwf.rowSorted b hb)).mpr (connected_of_rowsWhole h1 h2 hwhole hb) x

/-! ### The result is plain again -/

theorem operatorRuns_regionOperatorDone (h : WellFormed bands) :
    operatorRuns (regionOperatorDone bands) = runsCoalesce bands := by
  cases bands with
  | nil => rfl
  | cons c bands =>
    have hcount := four_le_runsGetCount (runsCoalesce_ne_nil (cons_ne_nil c bands))
    rw [regionOperatorDone, if_neg (by omega)]
    split
    · rename_i hsix
      obtain ⟨b, s, hruns, hval⟩ := eq_single_of_runsGetCount hsix
      rw [operatorRuns]
      rw [bounds_of_single h hruns hval, runsSetRect_toRect, hruns, ← hval]
    · rfl

theorem bounds_regionOperatorDone (hne : bands ≠ []) :
    skinBoxFromRect (regionOperatorDone bands).bounds = bands.foldl minmaxBand minmaxInit := by
  obtain ⟨c, bands, rfl⟩ := exists_cons_of_ne_nil hne
  have hcount := four_le_runsGetCount (runsCoalesce_ne_nil (cons_ne_nil c bands))
  rw [regionOperatorDone, if_neg (by omega)]
  split <;> exact skinBoxFromRect_toRect _

theorem plainRegion_empty : PlainRegion skinRegionInitEmpty where
  runs := ⟨⟨True.intro, nofun, nofun, nofun, nofun⟩, nofun⟩
  filled h := absurd h (by decide)
  bounds := nofun

section Coalesced
variable (h : Grammar n C bands)
include h

theorem val_runsCoalesce_of_connected (hconn : ∀ b ∈ bands, Connected (inRow b.val)) :
    ∀ b ∈ runsCoalesce bands, ∃ c ∈ bands, ∃ s spans,
      c.val = s :: spans ∧ b.val = [⟨s.lo, lastRight s.hi spans, ()⟩] := by
  intro b hb
  obtain ⟨c, hc, hval⟩ := val_mem_runsCoalesce b hb
  obtain ⟨s, spans, hs⟩ := exists_cons_of_ne_nil (h.filled c hc)
  have hsorted := h.rowSorted c hc
  have hrow := hconn c hc
  rw [hs] at hsorted hrow hval
  exact ⟨c, hc, s, spans, hs, hval.trans (runsCoalesceBand_of_connected hsorted hrow)⟩

theorem ends_coalesced {c : Band} (hc : c ∈ bands) (hs : c.val = s :: spans) :
    n ≤ s.lo ∧ s.lo < lastRight s.hi spans ∧ C s.lo ∧ C (lastRight s.hi spans) := by
  have hsorted := h.rowSorted c hc
  have hrow := h.rowEnds c hc
  rw [hs] at hsorted hrow
  have hlast := le_lastRight hsorted.2.2
  have hlt := hsorted.2.1
  refine ⟨hsorted.1, by omega, (hrow s mem_cons_self).1, ?_⟩
  exact lastRight_ends (hrow s mem_cons_self).2 (forall_mem_cons.mp hrow).2

theorem grammar_runsCoalesce (hconn : ∀ b ∈ bands, Connected (inRow b.val)) : Grammar n C (runsCoalesce bands) := by
  have hsingle := val_runsCoalesce_of_connected h hconn
  refine ⟨sortedFrom_runsCoalesce h.sorted, ends_runsCoalesce h.ends, ?_, ?_, ?_⟩
  · intro b hb
    obtain ⟨_, _, _, _, _, hval⟩ := hsingle b hb
    rw [hval]
    exact cons_ne_nil _ _
  · intro b hb
    obtain ⟨c, hc, s, spans, hs, hval⟩ := hsingle b hb
    obtain ⟨hlo, hlt, _⟩ := ends_coalesced h hc hs
    rw [hval]
    exact ⟨hlo, hlt, True.intro⟩
  · intro b hb
    obtain ⟨c, hc, s, spans, hs, hval⟩ := hsingle b hb
    obtain ⟨_, _, hlo, hhi⟩ := ends_coalesced h hc hs
    rw [hval]
    exact ends_cons hlo hhi nofun

end Coalesced

theorem plainRegion_regionOperatorDone (h : WellFormed bands)
    (hconn : ∀ b ∈ bands, Connected (inRow b.val)) : PlainRegion (regionOperatorDone bands) := by
  by_cases hne : bands = []
  · subst hne
    exact plainRegion_empty
  have hsingle := val_runsCoalesce_of_connected h hconn
  refine ⟨?_, fun _ => ?_, ?_⟩
  · rw [operatorRuns_regionOperatorDone h]
    refine ⟨grammar_runsCoalesce h hconn, ?_⟩
    intro b hb
    obtain ⟨_, _, _, _, _, hval⟩ := hsingle b hb
    rw [hval]
    rfl
  · rw [operatorRuns_regionOperatorDone h]
    exact runsCoalesce_ne_nil hne
  · rw [operatorRuns_regionOperatorDone h, bounds_regionOperatorDone hne]
    have hcovers : ∀ c ∈ bands, Covers (bands.foldl minmaxBand minmaxInit) c :=
      fun c hc => covers_foldl (.inr hc)
    -- the ends of coalesced bands are ends of bands
    have hlines : Ends (fun t => (bands.foldl minmaxBand minmaxInit).y1 ≤ t ∧
        t ≤ (bands.foldl minmaxBand minmaxInit).y2) bands := by
      intro c hc
      have htop := (hcovers c hc).top
      have hbottom := (hcovers c hc).bottom
      have hlt := (h.sorted.le_of_mem c hc).2
      omega
    intro b hb
    obtain ⟨c, hc, s, spans, hs, hval⟩ := hsingle b hb
    refine ⟨(ends_runsCoalesce hlines b hb).1.1, (ends_runsCoalesce hlines b hb).2.2, ?_, ?_⟩
    · intro s' spans' hs'
      obtain ⟨rfl, rfl⟩ := List.cons.inj (hs'.symm.trans hval)
      exact (hcovers c hc).left s spans hs
    · intro s' spans' hs'
      obtain ⟨rfl, rfl⟩ := List.cons.inj (hs'.symm.trans hval)
      exact (hcovers c hc).right s spans hs

/-! ### Room in the temporary store -/

theorem runsWritten_le (h : ∀ b ∈ bands, b.val.length ≤ 1) (pos : Nat) :
    runsWritten pos bands ≤ pos + 5 * bands.length + 2 := by
  induction bands generalizing pos with
  | nil =>
    rw [runsWritten]
    simp only [length_nil]
    omega
  | cons b bands ih =>
    have ih := ih (forall_mem_cons.mp h).2
    have hb := h b mem_cons_self
    rw [runsWritten, length_cons]
    split
    · have := ih pos
      omega
    · have := ih (pos + bandRuns b)
      rw [bandRuns] at this ⊢
      omega

theorem runsGetCount_plain {runs : List Band} (h : ∀ b ∈ runs, b.val.length = 1) :
    runsGetCount runs = 5 * runs.length + 1 := by
  have hsum : ∀ l : List Band, (∀ b ∈ l, b.val.length = 1) → (l.map bandRuns).sum = 5 * l.length := by
    intro l hl
    induction l with
    | nil => rfl
    | cons b l ih =>
      rw [map_cons, sum_cons, ih (forall_mem_cons.mp hl).2, bandRuns, hl b mem_cons_self, length_cons]
      omega
  rw [runsGetCount, hsum runs h]

theorem length_regionOperatorDo_intersect (runs1 runs2 : List Band) :
    (regionOperatorDo ⟨false, false, true⟩ runs1 runs2).length ≤ runs1.length + runs2.length - 1 := by
  refine le_trans (length_keep_le _ Cell.isBoth ?_ _) (countP_isBoth_overlay _ _)
  intro c hc
  cases c with
  | one | two => exact absurd hc (by simp [scanline])
  | both => rfl

theorem length_commonSpans_intersect (spans1 spans2 : List Span) :
    (commonSpans ⟨false, false, true⟩ spans1 spans2).length ≤ spans1.length + spans2.length - 1 := by
  refine le_trans (length_keep_le _ Cell.isBoth ?_ _) (countP_isBoth_overlay _ _)
  intro c hc
  cases c with
  | one | two => exact absurd hc (by simp [picks])
  | both => rfl

theorem intersect_fits (h1 : Grammar n C runs1) (h2 : Grammar n C runs2)
    (hs1 : ∀ b ∈ runs1, b.val.length = 1) (hs2 : ∀ b ∈ runs2, b.val.length = 1) (hne : runs1 ≠ []) :
    runsWritten 0 (regionOperatorDo ⟨false, false, true⟩ runs1 runs2) ≤
      3 * max (runsGetCount runs1) (runsGetCount runs2) := by
  have hrows : ∀ b ∈ regionOperatorDo ⟨false, false, true⟩ runs1 runs2, b.val.length ≤ 1 := by
    intro b hb
    obtain ⟨c, hc, _, _, hval⟩ := mem_keep hb
    have hall := all_overlay (P := fun spans : List Span => spans.length = 1)
      (Q := fun spans : List Span => spans.length = 1) h1.sorted h2.sorted hs1 hs2 c hc
    cases hcell : c.val with
    | one spans | two spans => rw [hcell] at hval; exact absurd hval (by simp [scanline])
    | both spans1 spans2 =>
      rw [hcell] at hval hall
      have hlen := length_commonSpans_intersect spans1 spans2
      rw [hall.1, hall.2] at hlen
      rw [← some.inj hval]
      exact hlen
  have hwritten := runsWritten_le hrows 0
  have hlen := length_regionOperatorDo_intersect runs1 runs2
  have hpos := length_pos_iff.mpr hne
  rw [runsGetCount_plain hs1, runsGetCount_plain hs2]
  omega

theorem length_regionOperatorDo_substract (h1 : Plain runs1) (h2 : Plain runs2) :
    (regionOperatorDo ⟨true, false, false⟩ runs1 runs2).length ≤ runs1.length + 2 * runs2.length := by
  refine le_trans (length_keep_le _ Cell.inOne ?_ _) (countP_inOne_overlay h1.sorted h2.sorted)
  intro c hc
  cases c with
  | one => rfl
  | two => exact absurd hc (by simp [scanline])
  | both => rfl

theorem commonSpans_substract (s : Span) (ht : t.lo < t.hi) :
    (commonSpans ⟨true, false, false⟩ [s] [t]).length ≤ 1 ∨ s.lo < t.lo ∧ t.lo < t.hi ∧ t.hi < s.hi := by
  by_cases hlt : s.lo < t.lo ∧ t.hi < s.hi
  · exact .inr ⟨hlt.1, ht, hlt.2⟩
  left
  show (keep _ (walk 2 [s] [t])).length ≤ 1
  rw [walk]
  split
  · simp [walk, keep, picks]
  split
  · simp [walk, keep, picks]
  by_cases hlo : s.lo < t.lo
  · have hhi : s.hi ≤ t.hi := by omega
    rw [before, if_pos hlo, after, if_pos hhi]
    by_cases heq : t.hi ≤ s.hi <;> simp [walk, after, keep, picks, heq]
  · rw [before, if_neg hlo]
    by_cases hgt : t.lo < s.lo <;> by_cases h1 : s.hi ≤ t.hi <;> by_cases h2 : t.hi ≤ s.hi <;>
      simp [walk, after, keep, picks, hgt, h1, h2]

theorem inRow_single (s : Span) (x : Int) : inRow [s] x = decide (s.lo ≤ x ∧ x < s.hi) := by
  rw [inRow_cons]
  exact Bool.or_false _

theorem length_substract_of_connected (hs : s.lo < s.hi) (ht : t.lo < t.hi)
    (hconn : Connected (inRow (commonSpans ⟨true, false, false⟩ [s] [t]))) :
    (commonSpans ⟨true, false, false⟩ [s] [t]).length ≤ 1 := by
  obtain h | ⟨hlo, hlt, hhi⟩ := commonSpans_substract s ht
  · exact h
  have hrow : ∀ x, inRow (commonSpans ⟨true, false, false⟩ [s] [t]) x =
      choose ⟨true, false, false⟩ (inRow [s] x) (inRow [t] x) :=
    fun x => inRow_commonSpans _ (sortedFrom_single (Int.min_le_left _ _) hs)
      (sortedFrom_single (Int.min_le_right _ _) ht) x
  have hmid := hconn s.lo t.lo t.hi (by omega) (by omega)
    (by
      rw [hrow, inRow_single, inRow_single, decide_eq_true ⟨by omega, by omega⟩, decide_eq_false (by omega)]
      rfl)
    (by
      rw [hrow, inRow_single, inRow_single, decide_eq_true ⟨by omega, by omega⟩, decide_eq_false (by omega)]
      rfl)
  rw [hrow, inRow_single, inRow_single, decide_eq_true ⟨by omega, by omega⟩,
    decide_eq_true ⟨by omega, by omega⟩] at hmid
  exact absurd hmid nofun

theorem substract_fits (h1 : Plain runs1) (h2 : Plain runs2)
    (hconn : ∀ b ∈ filledBands ⟨true, false, false⟩ runs1 runs2, Connected (inRow b.val)) :
    runsWritten 0 (regionOperatorDo ⟨true, false, false⟩ runs1 runs2) ≤
      3 * max (runsGetCount runs1) (runsGetCount runs2) := by
  have hrows : ∀ b ∈ regionOperatorDo ⟨true, false, false⟩ runs1 runs2, b.val.length ≤ 1 := by
    intro b hb
    by_cases hnil : b.val = []
    · rw [hnil]
      exact Nat.zero_le _
    have hb' := hconn b (mem_filter.mpr ⟨hb, decide_eq_true hnil⟩)
    obtain ⟨c, hc, _, _, hval⟩ := mem_keep hb
    have hall := all_overlay (P := fun spans : List Span => spans.length = 1 ∧ SortedFrom (-0x7fff) spans)
      (Q := fun spans : List Span => spans.length = 1 ∧ SortedFrom (-0x7fff) spans) h1.sorted h2.sorted
      (fun p hp => ⟨h1.single p hp, h1.rowSorted p hp⟩)
      (fun q hq => ⟨h2.single q hq, h2.rowSorted q hq⟩) c hc
    cases hcell : c.val with
    | one spans =>
      rw [hcell] at hval hall
      rw [← some.inj hval]
      exact le_of_eq hall.1
    | two spans => rw [hcell] at hval; exact absurd hval (by simp [scanline])
    | both spans1 spans2 =>
      rw [hcell] at hval hall
      obtain ⟨⟨hlen1, hs1⟩, hlen2, hs2⟩ := hall
      obtain ⟨s, rfl⟩ := length_eq_one_iff.mp hlen1
      obtain ⟨t, rfl⟩ := length_eq_one_iff.mp hlen2
      have hspans : commonSpans ⟨true, false, false⟩ [s] [t] = b.val := some.inj hval
      rw [← hspans] at hb' ⊢
      exact length_substract_of_connected hs1.2.1 hs2.2.1 hb'
  have hwritten := runsWritten_le hrows 0
  have hlen := length_regionOperatorDo_substract h1 h2
  rw [runsGetCount_plain h1.single, runsGetCount_plain h2.single]
  omega

end GemDroid.Skin
