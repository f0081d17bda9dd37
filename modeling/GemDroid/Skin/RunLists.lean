import GemDroid.Skin.RegionRuns
import GemDroid.Lib.OverlayCount
import Mathlib.Algebra.Order.BigOperators.Group.List
import Mathlib.Algebra.Order.Group.Nat

/-! Run lists of any shape that the format at the head of `android/skin/region.c` allows.

What the sweep of `region_operator_do` writes is right for all of them. How far it writes
follows from the ends of the bands and spans it is given, a number that the size of the temporary
store does not follow. Coalescing keeps the points of a list exactly if each scanline is
one run; then what it leaves is in the format, and `minmax` is its box. -/
namespace GemDroid.Skin

open Lib.Overlay Option
open List hiding after

/-- A value of a run that is no sentinel. -/
def IsRun (c : Int) : Prop := -0x8000 ≤ c ∧ c < 0x7fff

/-- Bands and spans in increasing order, and no scanline empty. -/
abbrev RunList (bands : List Band) : Prop := Grammar (-0x8000) IsRun bands

variable {bands runs1 runs2 : List Band} {prev b : Band} {s : Span} {spans : List Span} {n x y : Int} {C : Int → Prop}

/-! ### The sweep -/

/-- The bands that stay in the store are in order again, and hold what the flags pick. -/
theorem sweep_right (wanted : Wanted) (runs1 runs2 : List Band) (h1 : RunList runs1) (h2 : RunList runs2) :
    RunList (filledBands wanted runs1 runs2) ∧ ∀ x y, inBands (filledBands wanted runs1 runs2) x y =
        wanted.choose (inBands runs1 x y) (inBands runs2 x y) :=
  ⟨grammar_filledBands h1 h2, inBands_filledBands h1 h2⟩

/-- Two columns of one band. -/
def columns : List Band := [⟨0, 10, [⟨0, 10, ()⟩, ⟨20, 30, ()⟩]⟩]

/-- A bar across them. -/
def bar : List Band := [⟨5, 15, [⟨5, 25, ()⟩]⟩]

theorem runList_columns : RunList columns :=
  ⟨⟨by decide, by decide, trivial⟩, by simp [columns, Ends, IsRun], by simp [columns],
    by simp [columns, SortedFrom], by simp [columns, Ends, IsRun]⟩

theorem runList_bar : RunList bar :=
  ⟨⟨by decide, by decide, trivial⟩, by simp [bar, Ends, IsRun], by simp [bar],
    by simp [bar, SortedFrom], by simp [bar, Ends, IsRun]⟩

theorem columns_bar_swept : inBands (filledBands ⟨true, false, false⟩ columns bar) 22 7 = false ∧
    inBands (filledBands ⟨true, true, true⟩ columns bar) 15 7 = true :=
  ⟨(sweep_right ⟨true, false, false⟩ columns bar runList_columns runList_bar).2 22 7,
    (sweep_right ⟨true, true, true⟩ columns bar runList_columns runList_bar).2 15 7⟩

/-! ### Room for what is written -/

/-- What is written stays in the temporary store. -/
def Fits (wanted : Wanted) (runs1 runs2 : List Band) : Prop :=
  runsWritten 0 (regionOperatorDo wanted runs1 runs2) ≤ 3 * max (runsGetCount runs1) (runsGetCount runs2)

/-- The spans of a common band: one begins at each end of a span of either scanline whose point is
wanted. -/
def spansFrom (wanted : Wanted) (spans1 spans2 : List Span) : Nat :=
  ((cuts spans1 spans2).filter fun x => wanted.choose (inRow spans1 x) (inRow spans2 x) = true).card

/-- The runs of the band that begins where the two lists have these scanlines. -/
def runsFrom (wanted : Wanted) : Option (Cell (List Span) (List Span)) → Nat
  | none => 0
  | some (.one spans1) => if wanted.one then 3 + 2 * spans1.length else 0
  | some (.two spans2) => if wanted.two then 3 + 2 * spans2.length else 0
  | some (.both spans1 spans2) =>
    if spansFrom wanted spans1 spans2 = 0 then 0 else 3 + 2 * spansFrom wanted spans1 spans2

/-- Both lists have a scanline and nothing of it is wanted, so that only the head of a band is
written. -/
def headOnly (wanted : Wanted) : Option (Cell (List Span) (List Span)) → Bool
  | some (.both spans1 spans2) => decide (spansFrom wanted spans1 spans2 = 0)
  | _ => false

/-- Such a head is written behind the last band that has spans. -/
def HeadLast (wanted : Wanted) (runs1 runs2 : List Band) : Prop :=
  ∃ y ∈ cuts runs1 runs2, headOnly wanted (cellAt runs1 runs2 y) = true ∧
    ∀ y' ∈ cuts runs1 runs2, y < y' → runsFrom wanted (cellAt runs1 runs2 y') = 0

instance (wanted : Wanted) (runs1 runs2 : List Band) : Decidable (HeadLast wanted runs1 runs2) :=
  inferInstanceAs (Decidable (∃ y ∈ cuts runs1 runs2, _))

/-- The runs that an operation needs, from the ends of the bands and spans it is given. A head that
is left at the end takes two, the sentinel in its place one. -/
def runsNeeded (wanted : Wanted) (runs1 runs2 : List Band) : Nat :=
  ∑ y ∈ cuts runs1 runs2, runsFrom wanted (cellAt runs1 runs2 y) + if HeadLast wanted runs1 runs2 then 2 else 1

theorem length_commonSpans (wanted : Wanted) {spans1 spans2 : List Span} (h1 : SortedFrom n spans1)
    (h2 : SortedFrom n spans2) : (commonSpans wanted spans1 spans2).length = spansFrom wanted spans1 spans2 := by
  rw [commonSpans, length_keep_test, spansFrom, Finset.card_filter]
  refine (sum_overlay h1 h2 (fun c => if (c.map wanted.picks).getD false = true then 1 else 0) rfl).trans ?_
  refine Finset.sum_congr rfl fun x _ => ?_
  rw [cellAt, inRow, inRow]
  cases valueAt spans1 x <;> cases valueAt spans2 x <;> rfl

/-- A scanline of the format. -/
def Row (n : Int) (spans : List Span) : Prop := spans ≠ [] ∧ SortedFrom n spans

variable {wanted : Wanted} {c : Cell (List Span) (List Span)} {cells : List (Piece (Cell (List Span) (List Span)))}

theorem runsFrom_none (h : scanline wanted c = none) :
    runsFrom wanted (some c) = 0 ∧ headOnly wanted (some c) = false := by
  cases c with
  | one | two =>
    rw [scanline] at h
    split at h
    · cases h
    · rename_i hw
      exact ⟨if_neg hw, rfl⟩
  | both => cases h

theorem runsFrom_some (hc : c.All (Row n) (Row n)) (h : scanline wanted c = some spans) :
    runsFrom wanted (some c) = (if spans = [] then 0 else 3 + 2 * spans.length) ∧
      headOnly wanted (some c) = decide (spans = []) := by
  cases c with
  | one | two =>
    rw [scanline] at h
    split at h
    · rename_i hw
      rw [← some.inj h, if_neg hc.1, decide_eq_false hc.1]
      exact ⟨if_pos hw, rfl⟩
    · cases h
  | both spans1 spans2 =>
    have hlen := length_commonSpans wanted hc.1.2 hc.2.2
    rw [some.inj h] at hlen
    rw [runsFrom, headOnly, ← hlen]
    simp only [length_eq_zero_iff]
    exact ⟨trivial, trivial⟩

theorem three_le_runsFrom (h : runsFrom wanted (some c) ≠ 0) : 3 ≤ runsFrom wanted (some c) := by
  cases c <;> rw [runsFrom] at * <;> split <;> simp_all

/-- `HeadLast` of cells that are at hand. -/
def LastHead (wanted : Wanted) (cells : List (Piece (Cell (List Span) (List Span)))) : Prop :=
  ∃ c ∈ cells, headOnly wanted (some c.val) = true ∧ ∀ c' ∈ cells, c.lo < c'.lo → runsFrom wanted (some c'.val) = 0

theorem lastHead_cons {c : Piece (Cell (List Span) (List Span))} (h : SortedFrom n (c :: cells)) :
    LastHead wanted (c :: cells) ↔ headOnly wanted (some c.val) = true ∧
      (∀ c' ∈ cells, runsFrom wanted (some c'.val) = 0) ∨ LastHead wanted cells := by
  have hlt : ∀ c' ∈ cells, c.lo < c'.lo := fun c' hc' => h.2.1.trans_le (h.2.2.le_of_mem c' hc').1
  constructor
  · intro ⟨c0, hc0, hhead, hafter⟩
    have hafter := forall_mem_cons.1 hafter
    cases hc0 with
    | head => exact .inl ⟨hhead, fun c' hc' => hafter.2 c' hc' (hlt c' hc')⟩
    | tail _ hc0 => exact .inr ⟨c0, hc0, hhead, hafter.2⟩
  · rintro (⟨hhead, hafter⟩ | ⟨c0, hc0, hhead, hafter⟩)
    · exact ⟨c, mem_cons_self, hhead, forall_mem_cons.2 ⟨fun hlo => absurd hlo (lt_irrefl _),
        fun c' hc' _ => hafter c' hc'⟩⟩
    · exact ⟨c0, mem_cons_of_mem _ hc0, hhead, forall_mem_cons.2 ⟨fun hlo => absurd (hlt c0 hc0) hlo.not_gt, hafter⟩⟩

open Classical in
theorem runsWritten_keep {k : Int} (h : SortedFrom k cells) (hall : ∀ c ∈ cells, c.val.All (Row n) (Row n)) (pos : Nat) :
    runsWritten pos (keep (scanline wanted) cells) =
      pos + (cells.map fun c => runsFrom wanted (some c.val)).sum + if LastHead wanted cells then 2 else 1 := by
  induction cells generalizing k pos with
  | nil =>
    have hnot : ¬ LastHead wanted [] := fun ⟨_, hc, _⟩ => absurd hc not_mem_nil
    rw [if_neg hnot]
    rfl
  | cons c cells ih =>
    have hrest := (forall_mem_cons.1 hall).2
    rw [map_cons, sum_cons, lastHead_cons h]
    cases hc : scanline wanted c.val with
    | none =>
      obtain ⟨hruns, hhead⟩ := runsFrom_none hc
      rw [keep_cons_none cells hc, ih h.2.2 hrest, hruns, zero_add, hhead]
      simp only [Bool.false_eq_true, false_and, false_or]
    | some spans =>
      obtain ⟨hruns, hhead⟩ := runsFrom_some (hall c mem_cons_self) hc
      rw [keep_cons_some cells hc, runsWritten, hruns, hhead, decide_eq_true_eq]
      by_cases hnil : spans = []
      · -- the head is overwritten by the next band, or stays if there is none
        simp only [hnil, if_true, true_and, zero_add, ih h.2.2 hrest]
        by_cases hzero : ∀ c' ∈ cells, runsFrom wanted (some c'.val) = 0
        · have hsum : (cells.map fun c => runsFrom wanted (some c.val)).sum = 0 :=
            sum_eq_zero (forall_mem_map.2 hzero)
          rw [hsum, if_pos (Or.inl hzero)]
          split <;> omega
        · obtain ⟨c', hc', hne⟩ : ∃ c' ∈ cells, runsFrom wanted (some c'.val) ≠ 0 := by
            by_contra hall
            exact hzero fun c' hc' => by_contra fun hne => hall ⟨c', hc', hne⟩
          have hthree := three_le_runsFrom hne
          have hle := le_sum_of_mem (mem_map_of_mem (f := fun c : Piece _ => runsFrom wanted (some c.val)) hc')
          simp only [hzero, false_or]
          omega
      · rw [if_neg hnil, if_neg hnil, ih h.2.2 hrest, bandRuns]
        simp only [hnil, false_and, false_or]
        omega

theorem headLast_iff (h1 : SortedFrom n runs1) (h2 : SortedFrom n runs2) :
    HeadLast wanted runs1 runs2 ↔ LastHead wanted (overlay runs1 runs2) := by
  constructor
  · intro ⟨y, hy, hhead, hafter⟩
    cases hcell : cellAt runs1 runs2 y with
    | none => rw [hcell] at hhead; cases hhead
    | some v =>
      obtain ⟨c, hc, rfl, rfl⟩ := exists_cell h1 h2 hy hcell
      refine ⟨c, hc, hcell ▸ hhead, fun c' hc' hlt => ?_⟩
      rw [← cellAt_lo h1 h2 hc']
      exact hafter c'.lo (lo_mem_cuts hc') hlt
  · intro ⟨c, hc, hhead, hafter⟩
    refine ⟨c.lo, lo_mem_cuts hc, cellAt_lo h1 h2 hc ▸ hhead, fun y hy hlt => ?_⟩
    cases hcell : cellAt runs1 runs2 y with
    | none => rfl
    | some v =>
      obtain ⟨c', hc', rfl, rfl⟩ := exists_cell h1 h2 hy hcell
      exact hafter c' hc' hlt

theorem runsWritten_eq_runsNeeded (wanted : Wanted) (h1 : RunList runs1) (h2 : RunList runs2) :
    runsWritten 0 (regionOperatorDo wanted runs1 runs2) = runsNeeded wanted runs1 runs2 := by
  have hcells := all_overlay (P := Row (-0x8000)) (Q := Row (-0x8000)) h1.sorted h2.sorted
    (fun b hb => ⟨h1.filled b hb, h1.rowSorted b hb⟩) fun b hb => ⟨h2.filled b hb, h2.rowSorted b hb⟩
  rw [regionOperatorDo, runsWritten_keep (sortedFrom_overlay h1.sorted h2.sorted) hcells, zero_add,
    sum_overlay h1.sorted h2.sorted (runsFrom wanted) rfl, runsNeeded]
  have hlast : HeadLast wanted runs1 runs2 ↔ LastHead wanted _ := headLast_iff h1.sorted h2.sorted
  by_cases h : HeadLast wanted runs1 runs2
  · rw [if_pos h, if_pos (hlast.1 h)]
  · rw [if_neg h, if_neg (hlast.not.1 h)]

/-- The store is large enough exactly if the runs that are needed fit it; for the intersection of
lists with single spans they always do. -/
theorem store_suffices_iff (runs1 runs2 : List Band) (h1 : RunList runs1) (h2 : RunList runs2) :
    (∀ wanted, Fits wanted runs1 runs2 ↔
      runsNeeded wanted runs1 runs2 ≤ 3 * max (runsGetCount runs1) (runsGetCount runs2)) ∧
      (runs1 ≠ [] → (∀ b ∈ runs1, b.val.length = 1) → (∀ b ∈ runs2, b.val.length = 1) →
        Fits ⟨false, false, true⟩ runs1 runs2) := by
  refine ⟨fun wanted => ?_, fun hne hs1 hs2 => intersect_fits h1 h2 hs1 hs2 hne⟩
  rw [Fits, runsWritten_eq_runsNeeded wanted h1 h2]

def square : List Band := [⟨0, 10, [⟨0, 10, ()⟩]⟩]

/-- The same, five to the right and down. -/
def square2 : List Band := [⟨5, 15, [⟨5, 15, ()⟩]⟩]

theorem runList_square : RunList square ∧ RunList square2 := by
  constructor <;>
  exact ⟨⟨by decide, by decide, trivial⟩, by simp [square, square2, Ends, IsRun], by simp [square, square2],
    by simp [square, square2, SortedFrom], by simp [square, square2, Ends, IsRun]⟩

/-- Eleven runs of eighteen for the difference, twenty for the union. -/
theorem square_fits : Fits ⟨true, false, false⟩ square square2 ∧ ¬ Fits ⟨true, true, true⟩ square square2 :=
  ⟨((store_suffices_iff square square2 runList_square.1 runList_square.2).1 _).2 (by decide +kernel),
    ((store_suffices_iff square square2 runList_square.1 runList_square.2).1 _).not.2 (by decide +kernel)⟩

/-- Twenty-six runs for a store of twenty-four. -/
theorem columns_overflow : RunList columns ∧ RunList bar ∧ ¬ Fits ⟨true, true, true⟩ columns bar :=
  ⟨runList_columns, runList_bar, by rw [Fits]; decide⟩

/-! ### Coalescing -/

/-- `skin_region_contains` on a region of these runs. -/
def holds (runs : List Band) (x y : Int) : Bool := skinRegionContains ⟨⟨0, 0, 0, 0⟩, .complex runs⟩ x y

theorem holds_eq (h : SortedFrom n bands) :
    holds bands x y = ((valueAt bands y).map (scanlineContains · x)).getD false := by
  rw [holds, skinRegionContains]
  simp only
  rw [runsFindY_eq_valueAt h]
  cases valueAt bands y <;> rfl

theorem holds_iff (h : Grammar n C bands) :
    holds bands x y = true ↔ ∃ b ∈ bands, (b.lo ≤ y ∧ y < b.hi) ∧ inRow b.val x = true := by
  rw [holds_eq h.sorted]
  constructor
  · intro hin
    cases hval : valueAt bands y with
    | none => rw [hval] at hin; exact absurd hin Bool.false_ne_true
    | some spans =>
      obtain ⟨b, hb, hlo, hhi, rfl⟩ := mem_of_valueAt hval
      rw [hval, map_some, getD_some, scanlineContains_eq_inRow (h.rowSorted b hb)] at hin
      exact ⟨b, hb, ⟨hlo, hhi⟩, hin⟩
  · intro ⟨b, hb, hy, hin⟩
    rw [valueAt_of_mem h.sorted hb hy.1 hy.2, map_some, getD_some, scanlineContains_eq_inRow (h.rowSorted b hb), hin]

theorem holds_runsCoalesce_iff (h : Grammar n C bands) :
    (∀ x y, holds (runsCoalesce bands) x y = holds bands x y) ↔ ∀ b ∈ bands, Connected (inRow b.val) := by
  have hrow : ∀ b ∈ bands, ∀ x, holds (runsCoalesce bands) x b.lo = firstRun b.val x ∧
      holds bands x b.lo = inRow b.val x := by
    intro b hb x
    have hval := valueAt_of_mem h.sorted hb (Int.le_refl _) (h.sorted.le_of_mem b hb).2
    rw [holds_eq (sortedFrom_runsCoalesce h.sorted), scanlineContains_runsCoalesce h, holds_eq h.sorted, hval]
    exact ⟨rfl, scanlineContains_eq_inRow (h.rowSorted b hb) x⟩
  constructor
  · intro heq b hb
    refine (firstRun_eq_inRow_iff (h.rowSorted b hb)).1 fun x => ?_
    rw [← (hrow b hb x).1, heq, (hrow b hb x).2]
  · intro hconn x y
    rw [holds_eq (sortedFrom_runsCoalesce h.sorted), scanlineContains_runsCoalesce h, holds_eq h.sorted]
    cases hval : valueAt bands y with
    | none => rfl
    | some spans =>
      obtain ⟨b, hb, _, _, rfl⟩ := mem_of_valueAt hval
      rw [map_some, map_some, getD_some, getD_some, scanlineContains_eq_inRow (h.rowSorted b hb)]
      exact (firstRun_eq_inRow_iff (h.rowSorted b hb)).2 (hconn b hb) x

/-- The format with its gaps between spans, and no two bands that could be one. -/
structure Canonical (runs : List Band) : Prop where
  format : RunList runs
  gaps : ∀ b ∈ runs, b.val.IsChain fun s t => s.hi < t.lo
  distinct : runs.IsChain fun a b => a.hi = b.lo → a.val ≠ b.val

variable (prev : Band)

theorem coalesceBands_eq_cons (bands : List Band) :
    ∃ hi rest, coalesceBands prev bands = ⟨prev.lo, hi, prev.val⟩ :: rest := by
  induction bands generalizing prev with
  | nil => exact ⟨prev.hi, [], rfl⟩
  | cons b bands ih =>
    rw [coalesceBands]
    split
    · exact ih ⟨prev.lo, b.hi, prev.val⟩
    · exact ⟨prev.hi, _, rfl⟩

theorem distinct_coalesceBands (bands : List Band) :
    (coalesceBands prev bands).IsChain fun a b => a.hi = b.lo → a.val ≠ b.val := by
  induction bands generalizing prev with
  | nil => exact .singleton _
  | cons b bands ih =>
    rw [coalesceBands]
    split
    · exact ih _
    rename_i hne
    have hrest := ih ⟨b.lo, b.hi, runsCoalesceBand b.val⟩
    obtain ⟨hi, rest, heq⟩ := coalesceBands_eq_cons ⟨b.lo, b.hi, runsCoalesceBand b.val⟩ bands
    rw [heq] at hrest ⊢
    exact .cons_cons (fun hmeet hsame => hne ⟨hmeet, hsame⟩) hrest

theorem canonical_runsCoalesce (h : RunList bands) (hconn : ∀ b ∈ bands, Connected (inRow b.val)) :
    Canonical (runsCoalesce bands) where
  format := grammar_runsCoalesce h hconn
  gaps b hb := by
    obtain ⟨_, _, _, _, _, hval⟩ := val_runsCoalesce_of_connected h hconn b hb
    rw [hval]
    exact .singleton _
  distinct := by
    cases bands with
    | nil => exact .nil
    | cons b bands => exact distinct_coalesceBands _ _

def Box.has (box : Box) (x y : Int) : Prop := (box.x1 ≤ x ∧ x < box.x2) ∧ box.y1 ≤ y ∧ y < box.y2

def Box.within (box box' : Box) : Prop :=
  (box'.x1 ≤ box.x1 ∧ box.x2 ≤ box'.x2) ∧ box'.y1 ≤ box.y1 ∧ box.y2 ≤ box'.y2

/-- The smallest box around a set of points. -/
structure BoxOf (box : Box) (P : Int → Int → Bool) : Prop where
  inside : ∀ x y, P x y = true → box.has x y
  least : ∀ box' : Box, (∀ x y, P x y = true → box'.has x y) → box.within box'

theorem foldl_minmaxBand_within {box box' : Box} (hbands : ∀ b ∈ bands, ∃ s spans, b.val = s :: spans ∧
      Box.within ⟨s.lo, b.lo, lastRight s.hi spans, b.hi⟩ box') (hbox : box.within box') :
    (bands.foldl minmaxBand box).within box' := by
  induction bands generalizing box with
  | nil => exact hbox
  | cons b bands ih =>
    refine ih (forall_mem_cons.1 hbands).2 ?_
    obtain ⟨s, spans, hs, hb⟩ := hbands b mem_cons_self
    rw [minmaxBand, hs]
    simp only [Box.within] at *
    omega

theorem boxOf_minmax (h : RunList bands) (hconn : ∀ b ∈ bands, Connected (inRow b.val)) (hne : bands ≠ []) :
    BoxOf (bands.foldl minmaxBand minmaxInit) (holds bands) := by
  have hrow : ∀ b ∈ bands, ∀ s spans, b.val = s :: spans → ∀ x,
      inRow b.val x = true ↔ s.lo ≤ x ∧ x < lastRight s.hi spans := by
    intro b hb s spans hs x
    rw [← (firstRun_eq_inRow_iff (h.rowSorted b hb)).2 (hconn b hb), hs, firstRun, decide_eq_true_eq]
  constructor
  · intro x y hin
    obtain ⟨b, hb, hy, hx⟩ := (holds_iff h).1 hin
    obtain ⟨s, spans, hs⟩ := exists_cons_of_ne_nil (h.filled b hb)
    obtain ⟨htop, hbottom, hleft, hright⟩ : Covers (bands.foldl minmaxBand minmaxInit) b := covers_foldl (.inr hb)
    rw [hrow b hb s spans hs] at hx
    have hleft := hleft s spans hs
    have hright := hright s spans hs
    rw [Box.has]
    omega
  · intro box' hbox'
    -- two corners of a band are points
    have hbands : ∀ b ∈ bands, ∃ s spans, b.val = s :: spans ∧
        Box.within ⟨s.lo, b.lo, lastRight s.hi spans, b.hi⟩ box' := by
      intro b hb
      obtain ⟨s, spans, hs⟩ := exists_cons_of_ne_nil (h.filled b hb)
      have hlt := (ends_coalesced h hb hs).2.1
      have hband := (h.sorted.le_of_mem b hb).2
      have hpoint : ∀ x y, (b.lo ≤ y ∧ y < b.hi) → (s.lo ≤ x ∧ x < lastRight s.hi spans) → box'.has x y :=
        fun x y hy hx => hbox' x y ((holds_iff h).2 ⟨b, hb, hy, (hrow b hb s spans hs x).2 hx⟩)
      have hfirst := hpoint s.lo b.lo (by omega) (by omega)
      have hlast := hpoint (lastRight s.hi spans - 1) (b.hi - 1) (by omega) (by omega)
      refine ⟨s, spans, hs, ?_⟩
      simp only [Box.has, Box.within] at *
      omega
    refine foldl_minmaxBand_within hbands ?_
    obtain ⟨b, hb⟩ := exists_mem_of_ne_nil bands hne
    obtain ⟨s, spans, hs, hb'⟩ := hbands b hb
    obtain ⟨_, _, hlo, hhi⟩ := ends_coalesced h hb hs
    obtain ⟨htop, hbottom⟩ := h.ends b hb
    simp only [IsRun, Box.within, minmaxInit] at *
    omega

/-- Coalescing keeps the points exactly if every scanline is one run, and then it leaves canonical
runs and their box. -/
theorem coalesce_right (bands : List Band) (h : RunList bands) :
    ((∀ x y, holds (runsCoalesce bands) x y = holds bands x y) ↔ ∀ b ∈ bands, Connected (inRow b.val)) ∧
      ((∀ b ∈ bands, Connected (inRow b.val)) → Canonical (runsCoalesce bands) ∧
        (bands ≠ [] → BoxOf (bands.foldl minmaxBand minmaxInit) (holds bands))) :=
  ⟨holds_runsCoalesce_iff h, fun hconn => ⟨canonical_runsCoalesce h hconn, boxOf_minmax h hconn⟩⟩

theorem connected_single (s : Span) : Connected (inRow [s]) := by
  intro x1 x2 x3 h12 h23 h1 h3
  rw [inRow_single, decide_eq_true_eq] at *
  omega

theorem bar_coalesced : Canonical (runsCoalesce bar) ∧ BoxOf (bar.foldl minmaxBand minmaxInit) (holds bar) := by
  have hconn : ∀ b ∈ bar, Connected (inRow b.val) := by
    intro b hb
    rw [mem_singleton.1 hb]
    exact connected_single _
  have hright := (coalesce_right bar runList_bar).2 hconn
  exact ⟨hright.1, hright.2 (by decide)⟩

/-- The second column is lost, and its place has the first once more. -/
theorem columns_lost : RunList columns ∧ holds columns 25 5 = true ∧ holds (runsCoalesce columns) 25 5 = false ∧
    ¬ Canonical (runsCoalesce columns) := by
  refine ⟨runList_columns, by decide, by decide, fun h => ?_⟩
  have := h.gaps _ mem_cons_self
  simp [runsCoalesceBand, coalesceSpans] at this

end GemDroid.Skin
