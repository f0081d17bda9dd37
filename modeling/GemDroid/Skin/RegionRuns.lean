import GemDroid.Skin.Operator
import GemDroid.Lib.Reach

/-! Runs of calls of the region functions (`android/skin/region.h`).

The shortcuts are right for one operation and wrong for another: nothing is taken
away from a region by an empty one in an intersection, and a difference with a
region whose bounds do not meet empties it. Coalescing loses what lies behind the
first gap of a line, and the bands of a union can be more than the temporary store
has room for. As long as no call has met one of these, every scanline of every
region is a single span, and each operation is right exactly if it meets none
itself. -/
namespace GemDroid.Skin

variable {r r2 r' : Region} {P : Int → Int → Bool} {x y : Int}

open Lib.Overlay List Option Except

abbrev Store := Nat → Region

def put (σ : Store) (i : Nat) (r : Region) : Store := fun k => if k = i then r else σ k

/-- A call, with the regions it is given. The forms with a rectangle for the
second region are `initRect` on a region of their own and then the call. -/
inductive Call where
  | initEmpty (i : Nat)
  | init (i : Nat) (x1 y1 x2 y2 : Int)
  | initRect (i : Nat) (rect : Option Rect)
  | initBox (i : Nat) (box : Option Box)
  | initCopy (i : Nat) (src : Option Nat)
  | reset (i : Nat)
  | copy (i : Nat) (src : Option Nat)
  | translate (i : Nat) (dx dy : Int)
  | swap (i j : Nat)
  | intersect (i j : Nat)
  | union (i j : Nat)
  | substract (i j : Nat)
  | xor (i j : Nat)

def exec (σ : Store) : Call → Except Fault Store
  | .initEmpty i => .ok (put σ i skinRegionInitEmpty)
  | .init i x1 y1 x2 y2 => .ok (put σ i (skinRegionInit x1 y1 x2 y2))
  | .initRect i rect => .ok (put σ i (skinRegionInitRect rect))
  | .initBox i box => .ok (put σ i (skinRegionInitBox box))
  | .initCopy i src => .ok (put σ i (skinRegionInitCopy (src.map σ)))
  | .reset i => .ok (put σ i skinRegionInitEmpty)
  | .copy i src =>
    -- the region is reset first, also when it is its own source
    let σ' := put σ i skinRegionInitEmpty
    .ok (put σ' i (skinRegionInitCopy (src.map σ')))
  | .translate i dx dy => .ok (put σ i (skinRegionTranslate (σ i) dx dy))
  | .swap i j => .ok (put (put σ i (σ j)) j (σ i))
  | .intersect i j => (skinRegionIntersect (σ i) (σ j)).map fun res => put σ i res.1
  | .union i j => (skinRegionUnion (σ i) (σ j)).map (put σ i)
  | .substract i j => (skinRegionSubstract (σ i) (σ j)).map (put σ i)
  | .xor i j => (skinRegionXor (σ i) (σ j)).map (put σ i)

/-- The coordinates that a call brings in are below the sentinel in magnitude. -/
def Call.InRange (σ : Store) : Call → Prop
  | .init _ x1 y1 x2 y2 => Skin.InRange x1 ∧ Skin.InRange y1 ∧ Skin.InRange x2 ∧ Skin.InRange y2
  | .initRect _ (some r) =>
    Skin.InRange r.x ∧ Skin.InRange r.y ∧ Skin.InRange (r.x + r.w) ∧ Skin.InRange (r.y + r.h)
  | .initBox _ (some b) =>
    Skin.InRange b.x1 ∧ Skin.InRange b.y1 ∧ Skin.InRange b.x2 ∧ Skin.InRange b.y2
  | .translate i dx dy => ∀ b ∈ operatorRuns (σ i), (Skin.InRange (b.lo + dy) ∧ Skin.InRange (b.hi + dy)) ∧
      ∀ s ∈ b.val, Skin.InRange (s.lo + dx) ∧ Skin.InRange (s.hi + dx)
  | _ => True

def Start (σ : Store) : Prop := ∀ k, σ k = skinRegionInitEmpty

def Built (σ : Store) : Prop :=
  Lib.Reach Start (fun σ (c : Call) σ' => c.InRange σ ∧ exec σ c = .ok σ') σ

/-! ### What is asked of the operations -/

def Leaves (σ : Store) (i : Nat) (call : Call) (P : Int → Int → Bool) : Prop :=
  ∃ σ', exec σ call = .ok σ' ∧ (∀ k, k ≠ i → σ' k = σ k) ∧
    ∀ x y, IsInt x → IsInt y → skinRegionContains (σ' i) x y = P x y

def unionOf (r r2 : Region) (x y : Int) : Bool :=
  skinRegionContains r x y || skinRegionContains r2 x y

def intersectionOf (r r2 : Region) (x y : Int) : Bool :=
  skinRegionContains r x y && skinRegionContains r2 x y

def differenceOf (r r2 : Region) (x y : Int) : Bool :=
  skinRegionContains r x y && !skinRegionContains r2 x y

def xorOf (r r2 : Region) (x y : Int) : Bool :=
  skinRegionContains r x y ^^ skinRegionContains r2 x y

def UnionRight (σ : Store) (i j : Nat) : Prop :=
  Leaves σ i (.union i j) (unionOf (σ i) (σ j))

def IntersectRight (σ : Store) (i j : Nat) : Prop :=
  Leaves σ i (.intersect i j) (intersectionOf (σ i) (σ j))

def SubstractRight (σ : Store) (i j : Nat) : Prop :=
  Leaves σ i (.substract i j) (differenceOf (σ i) (σ j))

def XorRight (σ : Store) (i j : Nat) : Prop :=
  Leaves σ i (.xor i j) (xorOf (σ i) (σ j))

/-! ### When they do it -/

def cellRuns : Cell (List Span) (List Span) → Nat
  | .one spans1 => 3 + 2 * spans1.length
  | .two spans2 => 3 + 2 * spans2.length
  | .both spans1 spans2 => 3 + 2 * (overlay spans1 spans2).length

/-- The runs of all bands and spans into which two regions cut each other. -/
def overlayRuns (runs1 runs2 : List Band) : Nat :=
  ((overlay runs1 runs2).map fun c => cellRuns c.val).sum + 1

/-- One region is empty, or every line of the union is one run and the bands and
spans into which the regions cut each other fit three times the larger of the two. -/
def UnionMet (r r2 : Region) : Prop :=
  regionIsEmpty r = true ∨ regionIsEmpty r2 = true ∨
    RowsWhole (unionOf r r2) ∧ overlayRuns (operatorRuns r) (operatorRuns r2) ≤
      3 * max (runsGetCount (operatorRuns r)) (runsGetCount (operatorRuns r2))

/-- Only an empty region is intersected with an empty one. -/
def IntersectMet (r r2 : Region) : Prop :=
  regionIsEmpty r2 = true → regionIsEmpty r = true

/-- One region is empty, or the bounds meet and every line of the difference is
one run. -/
def SubstractMet (r r2 : Region) : Prop :=
  regionIsEmpty r = true ∨ regionIsEmpty r2 = true ∨
    skinRectContainsRect r.bounds r2.bounds ≠ .outside ∧ RowsWhole (differenceOf r r2)

/-- `skin_region_xor` does what `skin_region_substract` does; every line of that
is one run. -/
def XorMet (r r2 : Region) : Prop :=
  regionIsEmpty r = true ∨ regionIsEmpty r2 = true ∨ RowsWhole (differenceOf r r2)

def Inside (r r2 : Region) : Prop :=
  ∀ x y, IsInt x → IsInt y → skinRegionContains r x y = true → skinRegionContains r2 x y = true

/-- One region is empty, or the second lies in the first and every line of what is
left of that is one run. -/
def XorHolds (r r2 : Region) : Prop :=
  regionIsEmpty r = true ∨ regionIsEmpty r2 = true ∨ Inside r2 r ∧ RowsWhole (differenceOf r r2)

def Call.Met (σ : Store) : Call → Prop
  | .intersect i j => IntersectMet (σ i) (σ j)
  | .union i j => UnionMet (σ i) (σ j)
  | .substract i j => SubstractMet (σ i) (σ j)
  | .xor i j => XorMet (σ i) (σ j)
  | _ => True

/-- The regions built by calls that all meet their condition. -/
def BuiltWell (σ : Store) : Prop :=
  Lib.Reach Start (fun σ (c : Call) σ' => c.InRange σ ∧ c.Met σ ∧ exec σ c = .ok σ') σ

/-! ### Regions stay plain -/

theorem plainRegion_rect (box : Box) (hx1 : InRange box.x1) (hy1 : InRange box.y1)
    (hx2 : InRange box.x2) (hy2 : InRange box.y2) (hx : box.x1 < box.x2) (hy : box.y1 < box.y2) :
    PlainRegion ⟨skinBoxToRect box, .rect⟩ := by
  have hruns : operatorRuns ⟨skinBoxToRect box, .rect⟩ =
      [⟨box.y1, box.y2, [⟨box.x1, box.x2, ()⟩]⟩] := runsSetRect_toRect box
  have hlow : ∀ {c : Int}, InRange c → -0x7fff ≤ c := fun h => Int.le_of_lt h.1
  refine ⟨?_, fun _ => hruns ▸ cons_ne_nil _ _, ?_⟩
  · rw [hruns]
    refine ⟨⟨sortedFrom_single (hlow hy1) hy, ends_cons hy1 hy2 nofun, ?_, ?_, ?_⟩, ?_⟩
    · exact forall_mem_singleton.mpr (cons_ne_nil _ _)
    · exact forall_mem_singleton.mpr (sortedFrom_single (hlow hx1) hx)
    · exact forall_mem_singleton.mpr (ends_cons hx1 hx2 nofun)
    · exact forall_mem_singleton.mpr rfl
  · intro b hb
    rw [hruns] at hb
    rw [mem_singleton.mp hb, skinBoxFromRect_toRect]
    refine ⟨Int.le_refl _, Int.le_refl _, ?_, ?_⟩
    all_goals
      intro s spans h
      obtain ⟨rfl, rfl⟩ := cons.inj h
      exact Int.le_refl _

theorem plainRegion_init {x1 y1 x2 y2 : Int} (hx1 : InRange x1) (hy1 : InRange y1)
    (hx2 : InRange x2) (hy2 : InRange y2) : PlainRegion (skinRegionInit x1 y1 x2 y2) := by
  rw [skinRegionInit]
  split
  · exact plainRegion_empty
  · exact plainRegion_rect ⟨x1, y1, x2, y2⟩ hx1 hy1 hx2 hy2 (by simp only; omega) (by simp only; omega)

theorem plainRegion_initRect {r : Rect} (hx : InRange r.x) (hy : InRange r.y)
    (hx2 : InRange (r.x + r.w)) (hy2 : InRange (r.y + r.h)) : PlainRegion (skinRegionInitRect (some r)) := by
  rw [skinRegionInitRect]
  split
  · exact plainRegion_empty
  · rw [← toRect_fromRect r]
    rw [Int.add_comm] at hx2 hy2
    exact plainRegion_rect _ hx hy hx2 hy2 (by simp only [skinBoxFromRect]; omega)
      (by simp only [skinBoxFromRect]; omega)

theorem plainRegion_initCopy {src : Option Region} (h : ∀ r, src = some r → PlainRegion r) :
    PlainRegion (skinRegionInitCopy src) := by
  cases src with
  | none => exact plainRegion_empty
  | some r =>
    rw [skinRegionInitCopy]
    split
    · exact plainRegion_empty
    · exact h r rfl

theorem operatorRuns_translate (r : Region) (dx dy : Int) :
    operatorRuns (skinRegionTranslate r dx dy) = (operatorRuns r).map (translateBand dx dy) := by
  obtain ⟨bounds, runs⟩ := r
  cases runs with
  | empty => rfl
  | rect =>
    simp [skinRegionTranslate, operatorRuns, runsSetRect, skinRectTranslate, translateBand,
      translateSpan, Int.add_right_comm]
  | complex runs => rfl

variable {σ : Store}

theorem covers_translate {b : Band} (dx dy : Int)
    (h : Covers (skinBoxFromRect r.bounds) b) (hsingle : b.val.length = 1) :
    Covers (skinBoxFromRect (skinRectTranslate r.bounds dx dy)) (translateBand dx dy b) := by
  obtain ⟨s, hs⟩ := length_eq_one_iff.mp hsingle
  have htop := h.top
  have hbottom := h.bottom
  have hleft := h.left s [] hs
  have hright := h.right s [] hs
  have hval : (translateBand dx dy b).val = [translateSpan dx s] := by
    rw [translateBand, hs]
    rfl
  simp only [skinBoxFromRect, lastRight] at htop hbottom hleft hright
  refine ⟨?_, ?_, ?_, ?_⟩
  · simp only [skinBoxFromRect, skinRectTranslate, translateBand]
    omega
  · simp only [skinBoxFromRect, skinRectTranslate, translateBand]
    omega
  · intro s' spans h'
    obtain ⟨rfl, rfl⟩ := cons.inj (hval.symm.trans h')
    simp only [skinBoxFromRect, skinRectTranslate, translateSpan]
    omega
  · intro s' spans h'
    obtain ⟨rfl, rfl⟩ := cons.inj (hval.symm.trans h')
    simp only [skinBoxFromRect, skinRectTranslate, translateSpan, lastRight]
    omega

theorem plainRegion_translate (h : PlainRegion r) {dx dy : Int}
    (hrange : ∀ b ∈ operatorRuns r, (InRange (b.lo + dy) ∧ InRange (b.hi + dy)) ∧
      ∀ s ∈ b.val, InRange (s.lo + dx) ∧ InRange (s.hi + dx)) : PlainRegion (skinRegionTranslate r dx dy) := by
  have hmem : ∀ {P : Band → Prop}, (∀ b ∈ operatorRuns r, P (translateBand dx dy b)) →
      ∀ c ∈ operatorRuns (skinRegionTranslate r dx dy), P c := by
    rw [operatorRuns_translate]
    exact forall_mem_map.mpr
  have hrow : ∀ b ∈ operatorRuns r, Ends InRange (translateBand dx dy b).val := by
    intro b hb s hs
    obtain ⟨s', hs', rfl⟩ := mem_map.mp hs
    exact (hrange b hb).2 s' hs'
  have hends : Ends InRange (operatorRuns (skinRegionTranslate r dx dy)) := hmem fun b hb => (hrange b hb).1
  refine ⟨⟨⟨?_, hends, ?_, ?_, ?_⟩, ?_⟩, ?_, ?_⟩
  · have hsorted := sortedFrom_shift (map (translateSpan dx)) dy h.runs.sorted
    refine SortedFrom.of_le (n := -0x7fff + dy) ?_ fun c hc => Int.le_of_lt (hends c hc).1.1
    rw [operatorRuns_translate]
    exact hsorted
  · exact hmem fun b hb hnil => h.runs.filled b hb (map_eq_nil_iff.mp hnil)
  · exact hmem fun b hb => (sortedFrom_shift id dx (h.runs.rowSorted b hb)).of_le
      fun s hs => Int.le_of_lt (hrow b hb s hs).1.1
  · exact hmem hrow
  · refine hmem fun b hb => ?_
    rw [translateBand, length_map]
    exact h.runs.single b hb
  · intro hne
    rw [operatorRuns_translate]
    refine fun hnil => h.filled ?_ (map_eq_nil_iff.mp hnil)
    obtain ⟨bounds, runs⟩ := r
    cases runs <;> exact hne
  · refine hmem fun b hb => ?_
    have hcover := covers_translate dx dy (h.bounds b hb) (h.runs.single b hb)
    obtain ⟨bounds, runs⟩ := r
    cases runs with
    | empty => exact absurd hb not_mem_nil
    | rect => exact hcover
    | complex runs => exact hcover

/-! ### The operations on plain regions -/

theorem rowsWhole_contains (h : PlainRegion r) : RowsWhole (skinRegionContains r) := by
  intro y x1 x2 x3 hy hx1 hx3 h12 h23 hin1 hin3
  have hx2 := hx1.between hx3 h12 h23
  rw [contains_plain h.runs hx1 hy, inBands] at hin1
  rw [contains_plain h.runs hx3 hy, inBands] at hin3
  rw [contains_plain h.runs hx2 hy, inBands]
  cases hval : valueAt (operatorRuns r) y with
  | none => rw [hval] at hin1; exact absurd hin1 Bool.false_ne_true
  | some spans =>
    obtain ⟨b, hb, _, _, rfl⟩ := mem_of_valueAt hval
    obtain ⟨s, hs⟩ := length_eq_one_iff.mp (h.runs.single b hb)
    rw [hval, map_some, getD_some, hs, inRow_single, decide_eq_true_eq] at hin1 hin3
    rw [map_some, getD_some, hs, inRow_single, decide_eq_true_eq]
    omega

theorem unionOf_eq_chosen (r r2 : Region) : unionOf r r2 = chosen ⟨true, true, true⟩ r r2 := by
  funext x y
  rw [unionOf, chosen]
  cases skinRegionContains r x y <;> cases skinRegionContains r2 x y <;> rfl

theorem intersectionOf_eq_chosen (r r2 : Region) : intersectionOf r r2 = chosen ⟨false, false, true⟩ r r2 := by
  funext x y
  rw [intersectionOf, chosen]
  cases skinRegionContains r x y <;> cases skinRegionContains r2 x y <;> rfl

theorem differenceOf_eq_chosen (r r2 : Region) : differenceOf r r2 = chosen ⟨true, false, false⟩ r r2 := by
  funext x y
  rw [differenceOf, chosen]
  cases skinRegionContains r x y <;> cases skinRegionContains r2 x y <;> rfl

theorem rowsWhole_intersection (h : PlainRegion r) (h2 : PlainRegion r2) : RowsWhole (intersectionOf r r2) := by
  intro y x1 x2 x3 hy hx1 hx3 h12 h23 hin1 hin3
  rw [intersectionOf, Bool.and_eq_true] at *
  exact ⟨rowsWhole_contains h y x1 x2 x3 hy hx1 hx3 h12 h23 hin1.1 hin3.1,
    rowsWhole_contains h2 y x1 x2 x3 hy hx1 hx3 h12 h23 hin1.2 hin3.2⟩

theorem contains_empty (h : regionIsEmpty r = true) (x y : Int) : skinRegionContains r x y = false := by
  have hruns : r.runs = .empty := of_decide_eq_true h
  rw [skinRegionContains, hruns]

theorem contains_initCopy (r : Region) (x y : Int) :
    skinRegionContains (skinRegionInitCopy (some r)) x y = skinRegionContains r x y := by
  rw [skinRegionInitCopy]
  split
  · rename_i h
    rw [contains_empty h]
    rfl
  · rfl

theorem runsWritten_union {n : Int} {C : Int → Prop} {runs1 runs2 : List Band} (h1 : Grammar n C runs1)
    (h2 : Grammar n C runs2) :
    runsWritten 0 (regionOperatorDo ⟨true, true, true⟩ runs1 runs2) = overlayRuns runs1 runs2 := by
  have hcells := all_overlay (P := fun spans : List Span => spans ≠ [])
    (Q := fun spans : List Span => spans ≠ []) h1.sorted h2.sorted h1.filled h2.filled
  have hlen : ∀ spans1 spans2 : List Span,
      commonSpans ⟨true, true, true⟩ spans1 spans2 = (overlay spans1 spans2).map fun c => ⟨c.lo, c.hi, ()⟩ := by
    intro spans1 spans2
    rw [commonSpans, keep, ← filterMap_eq_map]
    congr 1
    funext c
    obtain ⟨lo, hi, cell⟩ := c
    cases cell <;> rfl
  have hwritten : ∀ (cells : List (Piece (Cell (List Span) (List Span)))) (pos : Nat),
      (∀ c ∈ cells, c.val.All (fun spans : List Span => spans ≠ []) fun spans : List Span => spans ≠ []) →
      runsWritten pos (keep (scanline ⟨true, true, true⟩) cells) =
        pos + (cells.map fun c => cellRuns c.val).sum + 1 := by
    intro cells
    induction cells with
    | nil => intro pos _; rfl
    | cons c cells ih =>
      intro pos hall
      have hc := hall c mem_cons_self
      have hrest := (forall_mem_cons.mp hall).2
      obtain ⟨spans, hspans, hne, hruns⟩ : ∃ spans, scanline ⟨true, true, true⟩ c.val = some spans ∧
          spans ≠ [] ∧ 3 + 2 * spans.length = cellRuns c.val := by
        cases hcell : c.val with
        | one spans | two spans => rw [hcell] at hc; exact ⟨spans, rfl, hc, rfl⟩
        | both spans1 spans2 =>
          rw [hcell] at hc
          refine ⟨_, rfl, ?_, ?_⟩
          · rw [hlen]
            exact fun hnil => overlay_ne_nil hc.1 spans2 (map_eq_nil_iff.mp hnil)
          · rw [hlen, length_map, cellRuns]
      rw [keep_cons_some cells hspans, runsWritten, if_neg hne, ih _ hrest, bandRuns, map_cons, sum_cons, ← hruns]
      simp only
      omega
  have := hwritten (overlay runs1 runs2) 0 hcells
  rw [zero_add] at this
  exact this

/-- The operation returns a region with these points. -/
def Gives (result : Except Fault Region) (P : Int → Int → Bool) : Prop :=
  ∃ r', result = .ok r' ∧ ∀ x y, IsInt x → IsInt y → skinRegionContains r' x y = P x y

theorem gives_operator_iff (wanted : Wanted) (h : PlainRegion r) (h2 : PlainRegion r2) :
    Gives (regionOperator wanted r r2) (chosen wanted r r2) ↔ RowsWhole (chosen wanted r r2) ∧
        runsWritten 0 (regionOperatorDo wanted (operatorRuns r) (operatorRuns r2)) ≤
          3 * max (runsGetCount (operatorRuns r)) (runsGetCount (operatorRuns r2)) := by
  have hright := operatorDone_right_iff wanted h.runs h2.runs
  constructor
  · rintro ⟨r', hok, hpoints⟩
    simp only [regionOperator] at hok
    split at hok
    · exact absurd hok nofun
    · rename_i hfits
      refine ⟨hright.mp ?_, by omega⟩
      rw [← ok.inj hok] at hpoints
      exact hpoints
  · intro ⟨hwhole, hfits⟩
    refine ⟨_, ?_, hright.mpr hwhole⟩
    simp only [regionOperator]
    rw [if_neg (by omega)]
    rfl

section Plain
variable (h : PlainRegion r)
include h

/-- A result that is wrong at the points of a region that has some. -/
theorem not_gives (hr : ¬ regionIsEmpty r = true)
    (hne : ∀ x y, IsInt x → IsInt y → skinRegionContains r x y = true → skinRegionContains r' x y ≠ P x y) :
    ¬ Gives (.ok r') P := by
  intro ⟨r'', hok, hpoints⟩
  obtain ⟨x, y, hx, hy, hin⟩ := exists_point h (Bool.not_eq_true _ ▸ hr)
  exact hne x y hx hy hin (ok.inj hok ▸ hpoints x y hx hy)

variable (h2 : PlainRegion r2)
include h2

theorem gives_union_iff : Gives (skinRegionUnion r r2) (unionOf r r2) ↔ UnionMet r r2 := by
  rw [skinRegionUnion, UnionMet]
  by_cases hr : regionIsEmpty r = true
  · rw [if_pos hr]
    refine iff_of_true ⟨_, rfl, fun x y _ _ => ?_⟩ (.inl hr)
    rw [contains_initCopy, unionOf, contains_empty hr, Bool.false_or]
  rw [if_neg hr]
  by_cases hr2 : regionIsEmpty r2 = true
  · rw [if_pos hr2]
    refine iff_of_true ⟨_, rfl, fun x y _ _ => ?_⟩ (.inr (.inl hr2))
    rw [unionOf, contains_empty hr2, Bool.or_false]
  · rw [if_neg hr2, or_iff_right hr, or_iff_right hr2, unionOf_eq_chosen,
      gives_operator_iff _ h h2, runsWritten_union h.runs.toGrammar
        h2.runs.toGrammar]

theorem gives_intersect_iff :
    Gives ((skinRegionIntersect r r2).map Prod.fst) (intersectionOf r r2) ↔ IntersectMet r r2 := by
  rw [skinRegionIntersect, IntersectMet]
  by_cases hr : regionIsEmpty r = true
  · rw [if_pos hr]
    refine iff_of_true ⟨_, rfl, fun x y _ _ => ?_⟩ fun _ => hr
    rw [intersectionOf, contains_empty hr, Bool.false_and]
  rw [if_neg hr]
  by_cases hr2 : regionIsEmpty r2 = true
  · -- the region stays as it is
    rw [if_pos hr2]
    refine iff_of_false (not_gives h hr fun x y hx hy hin => ?_) fun hmet => hr (hmet hr2)
    rw [hin, intersectionOf, contains_empty hr2, Bool.and_false]
    decide
  rw [if_neg hr2]
  refine iff_of_true ?_ fun h => absurd h hr2
  by_cases hout : skinRectContainsRect r.bounds r2.bounds = .outside
  · rw [if_pos hout]
    refine ⟨_, rfl, fun x y hx hy => ?_⟩
    rw [intersectionOf, contains_empty rfl]
    cases hin : skinRegionContains r x y with
    | false => rfl
    | true => rw [disjoint_of_outside h h2 hout hx hy hin]; rfl
  rw [if_neg hout]
  have hne : operatorRuns r ≠ [] := h.filled (Bool.not_eq_true _ ▸ hr)
  have hwhole := rowsWhole_intersection h h2
  rw [intersectionOf_eq_chosen] at hwhole ⊢
  obtain ⟨r', hok, hpoints⟩ :=
    (gives_operator_iff _ h h2).mpr ⟨hwhole, intersect_fits h.runs.toGrammar
      h2.runs.toGrammar h.runs.single h2.runs.single hne⟩
  refine ⟨r', ?_, hpoints⟩
  rw [hok]
  rfl

theorem gives_substract_iff : Gives (skinRegionSubstract r r2) (differenceOf r r2) ↔ SubstractMet r r2 := by
  rw [skinRegionSubstract, SubstractMet]
  by_cases hr : regionIsEmpty r = true
  · rw [if_pos (.inl hr)]
    refine iff_of_true ⟨_, rfl, fun x y _ _ => ?_⟩ (.inl hr)
    rw [differenceOf, contains_empty hr, Bool.false_and]
  by_cases hr2 : regionIsEmpty r2 = true
  · rw [if_pos (.inr hr2)]
    refine iff_of_true ⟨_, rfl, fun x y _ _ => ?_⟩ (.inr (.inl hr2))
    rw [differenceOf, contains_empty hr2, Bool.not_false, Bool.and_true]
  rw [if_neg (not_or.mpr ⟨hr, hr2⟩), or_iff_right hr, or_iff_right hr2]
  by_cases hout : skinRectContainsRect r.bounds r2.bounds = .outside
  · -- the region is emptied
    rw [if_pos hout]
    refine iff_of_false (not_gives h hr fun x y hx hy hin => ?_) fun hmet => hmet.1 hout
    rw [contains_empty rfl, differenceOf, hin, disjoint_of_outside h h2 hout hx hy hin]
    decide
  · rw [if_neg hout, differenceOf_eq_chosen, gives_operator_iff _ h h2, and_iff_right hout]
    refine and_iff_left_of_imp fun hwhole => substract_fits h.runs h2.runs fun b hb => ?_
    exact connected_of_rowsWhole h.runs h2.runs hwhole hb

theorem contains_of_substract (hok : regionOperator ⟨true, false, false⟩ r r2 = .ok r')
    (hx : IsInt x) (hy : IsInt y) (hin : skinRegionContains r' x y = true) : skinRegionContains r x y = true := by
  have hwf : WellFormed (filledBands ⟨true, false, false⟩ _ _) :=
    grammar_filledBands h.runs.toGrammar h2.runs.toGrammar
  simp only [regionOperator] at hok
  split at hok
  · cases hok
  have hchosen : chosen ⟨true, false, false⟩ r r2 x y = true := by
    rw [← ok.inj hok] at hin
    have hfirst := (contains_regionOperatorDone hwf hx hy).symm.trans hin
    rw [chosen_eq_inBands h.runs h2.runs hx hy, inBands]
    cases hval : valueAt (filledBands ⟨true, false, false⟩ (operatorRuns r) (operatorRuns r2)) y with
    | none => rw [hval] at hfirst; exact absurd hfirst Bool.false_ne_true
    | some spans =>
      obtain ⟨b, hb, _, _, rfl⟩ := mem_of_valueAt hval
      obtain ⟨s, spans, hs⟩ := exists_cons_of_ne_nil (hwf.filled b hb)
      have hrow := hwf.rowSorted b hb
      rw [hval, hs, map_some, getD_some] at hfirst
      rw [hs] at hrow ⊢
      exact inRow_of_firstRun hrow hfirst
  rw [← differenceOf_eq_chosen, differenceOf, Bool.and_eq_true] at hchosen
  exact hchosen.1

theorem gives_xor_iff : Gives (skinRegionXor r r2) (xorOf r r2) ↔ XorHolds r r2 := by
  rw [skinRegionXor, XorHolds]
  by_cases hr : regionIsEmpty r = true
  · rw [if_pos hr]
    refine iff_of_true ⟨_, rfl, fun x y _ _ => ?_⟩ (.inl hr)
    rw [contains_initCopy, xorOf, contains_empty hr, Bool.false_xor]
  rw [if_neg hr]
  by_cases hr2 : regionIsEmpty r2 = true
  · rw [if_pos hr2]
    refine iff_of_true ⟨_, rfl, fun x y _ _ => ?_⟩ (.inr (.inl hr2))
    rw [xorOf, contains_empty hr2, Bool.xor_false]
  rw [if_neg hr2, or_iff_right hr, or_iff_right hr2]
  -- in a region that holds the other the two sets are the same
  have hsame : Inside r2 r → ∀ x y, IsInt x → IsInt y → xorOf r r2 x y = differenceOf r r2 x y := by
    intro hsub x y hx hy
    have hin := hsub x y hx hy
    rw [xorOf, differenceOf]
    cases hone : skinRegionContains r x y <;> cases htwo : skinRegionContains r2 x y <;>
      simp_all only [Bool.false_eq_true, imp_false, not_true_eq_false] <;> rfl
  by_cases hout : skinRectContainsRect r.bounds r2.bounds = .outside
  · rw [if_pos hout]
    refine iff_of_false (not_gives h hr fun x y hx hy hin => ?_) ?_
    · rw [contains_empty rfl, xorOf, hin, disjoint_of_outside h h2 hout hx hy hin]
      decide
    · intro ⟨hsub, _⟩
      obtain ⟨x, y, hx, hy, hin⟩ := exists_point h2 (Bool.not_eq_true _ ▸ hr2)
      exact absurd hin (Bool.not_eq_true _ ▸ disjoint_of_outside h h2 hout hx hy (hsub x y hx hy hin))
  rw [if_neg hout]
  have hdiff := (gives_substract_iff h h2).trans (Iff.of_eq (SubstractMet.eq_1 r r2))
  rw [skinRegionSubstract, if_neg (not_or.mpr ⟨hr, hr2⟩), if_neg hout, or_iff_right hr, or_iff_right hr2,
    and_iff_right hout] at hdiff
  rw [← hdiff]
  constructor
  · intro ⟨r', hok, hpoints⟩
    have hsub : Inside r2 r := by
      intro x y hx hy hin
      by_contra hnot
      have hxor : xorOf r r2 x y = true := by
        rw [xorOf, hin, eq_false_of_ne_true hnot]; rfl
      exact hnot (contains_of_substract h h2 hok hx hy ((hpoints x y hx hy).trans hxor))
    exact ⟨hsub, r', hok, fun x y hx hy => (hpoints x y hx hy).trans (hsame hsub x y hx hy)⟩
  · intro ⟨hsub, r', hok, hpoints⟩
    exact ⟨r', hok, fun x y hx hy => (hpoints x y hx hy).trans (hsame hsub x y hx hy).symm⟩

/-! ### The regions that the operations leave -/

theorem plainRegion_operator {wanted : Wanted}
    (hwhole : RowsWhole (chosen wanted r r2)) (hok : regionOperator wanted r r2 = .ok r') : PlainRegion r' := by
  simp only [regionOperator] at hok
  split at hok
  · exact absurd hok nofun
  · rw [← ok.inj hok]
    exact plainRegion_regionOperatorDone
      (grammar_filledBands h.runs.toGrammar h2.runs.toGrammar)
      fun b hb => connected_of_rowsWhole h.runs h2.runs hwhole hb

theorem plainRegion_union (hmet : UnionMet r r2) (hok : skinRegionUnion r r2 = .ok r') : PlainRegion r' := by
  rw [skinRegionUnion] at hok
  split at hok
  · rw [← ok.inj hok]
    exact plainRegion_initCopy fun r hr => some.inj hr ▸ h2
  rename_i hr
  split at hok
  · exact ok.inj hok ▸ h
  rename_i hr2
  obtain hmet | hmet | hmet := hmet
  · exact absurd hmet hr
  · exact absurd hmet hr2
  · exact plainRegion_operator h h2 (unionOf_eq_chosen r r2 ▸ hmet.1) hok

theorem plainRegion_intersect {res : Region × Bool} (hok : skinRegionIntersect r r2 = .ok res) : PlainRegion res.1 := by
  rw [skinRegionIntersect] at hok
  split at hok
  · rw [← ok.inj hok]; exact h
  split at hok
  · rw [← ok.inj hok]; exact h
  split at hok
  · rw [← ok.inj hok]; exact plainRegion_empty
  cases hop : regionOperator ⟨false, false, true⟩ r r2 with
  | error fault => rw [hop] at hok; exact absurd hok nofun
  | ok r' =>
    rw [hop] at hok
    rw [← ok.inj hok]
    exact plainRegion_operator h h2 (intersectionOf_eq_chosen r r2 ▸ rowsWhole_intersection h h2) hop

theorem plainRegion_substract
    (hmet : SubstractMet r r2) (hok : skinRegionSubstract r r2 = .ok r') : PlainRegion r' := by
  rw [skinRegionSubstract] at hok
  split at hok
  · exact ok.inj hok ▸ h
  rename_i hr
  split at hok
  · exact ok.inj hok ▸ plainRegion_empty
  · obtain hmet | hmet | hmet := hmet
    · exact absurd (.inl hmet) hr
    · exact absurd (.inr hmet) hr
    · exact plainRegion_operator h h2 (differenceOf_eq_chosen r r2 ▸ hmet.2) hok

theorem plainRegion_xor (hmet : XorMet r r2) (hok : skinRegionXor r r2 = .ok r') : PlainRegion r' := by
  rw [skinRegionXor] at hok
  split at hok
  · rw [← ok.inj hok]
    exact plainRegion_initCopy fun r hr => some.inj hr ▸ h2
  rename_i hr
  split at hok
  · exact ok.inj hok ▸ h
  rename_i hr2
  split at hok
  · exact ok.inj hok ▸ plainRegion_empty
  · obtain hmet | hmet | hmet := hmet
    · exact absurd hmet hr
    · exact absurd hmet hr2
    · exact plainRegion_operator h h2 (differenceOf_eq_chosen r r2 ▸ hmet) hok

end Plain

/-! ### Runs -/

def AllPlain (σ : Store) : Prop := ∀ k, PlainRegion (σ k)

theorem AllPlain.put (h : AllPlain σ) (hr : PlainRegion r) (i : Nat) : AllPlain (Skin.put σ i r) := by
  intro k
  rw [Skin.put]
  split
  · exact hr
  · exact h k

theorem AllPlain.initCopy (h : AllPlain σ) (src : Option Nat) : PlainRegion (skinRegionInitCopy (src.map σ)) := by
  apply plainRegion_initCopy
  intro r hr
  obtain ⟨j, _, rfl⟩ := map_eq_some_iff.mp hr
  exact h j

theorem ok_of_map {α β : Type} {e : Except Fault α} {f : α → β} {b : β} (h : e.map f = .ok b) :
    ∃ a, e = .ok a ∧ f a = b := by
  cases e with
  | error fault => exact absurd h nofun
  | ok a => exact ⟨a, rfl, ok.inj h⟩

variable {σ' : Store} {i : Nat} {call : Call}

theorem AllPlain.exec {c : Call} (h : AllPlain σ) (hrange : c.InRange σ)
    (hmet : c.Met σ) (hexec : Skin.exec σ c = .ok σ') : AllPlain σ' := by
  cases c with
  | initEmpty i | reset i => exact ok.inj hexec ▸ h.put plainRegion_empty i
  | init i x1 y1 x2 y2 =>
    obtain ⟨hx1, hy1, hx2, hy2⟩ := hrange
    exact ok.inj hexec ▸ h.put (plainRegion_init hx1 hy1 hx2 hy2) i
  | initRect i rect =>
    cases rect with
    | none => exact ok.inj hexec ▸ h.put plainRegion_empty i
    | some rect =>
      obtain ⟨hx, hy, hx2, hy2⟩ := hrange
      exact ok.inj hexec ▸ h.put (plainRegion_initRect hx hy hx2 hy2) i
  | initBox i box =>
    cases box with
    | none => exact ok.inj hexec ▸ h.put plainRegion_empty i
    | some box =>
      obtain ⟨hx1, hy1, hx2, hy2⟩ := hrange
      exact ok.inj hexec ▸ h.put (plainRegion_init hx1 hy1 hx2 hy2) i
  | initCopy i src => exact ok.inj hexec ▸ h.put (h.initCopy src) i
  | copy i src =>
    have h' := h.put plainRegion_empty i
    exact ok.inj hexec ▸ h'.put (h'.initCopy src) i
  | translate i dx dy => exact ok.inj hexec ▸ h.put (plainRegion_translate (h i) hrange) i
  | swap i j => exact ok.inj hexec ▸ (h.put (h j) i).put (h i) j
  | intersect i j =>
    obtain ⟨res, hok, rfl⟩ := ok_of_map hexec
    exact h.put (plainRegion_intersect (h i) (h j) hok) i
  | union i j =>
    obtain ⟨r', hok, rfl⟩ := ok_of_map hexec
    exact h.put (plainRegion_union (h i) (h j) hmet hok) i
  | substract i j =>
    obtain ⟨r', hok, rfl⟩ := ok_of_map hexec
    exact h.put (plainRegion_substract (h i) (h j) hmet hok) i
  | xor i j =>
    obtain ⟨r', hok, rfl⟩ := ok_of_map hexec
    exact h.put (plainRegion_xor (h i) (h j) hmet hok) i

theorem BuiltWell.allPlain (h : BuiltWell σ) : AllPlain σ :=
  Lib.Reach.invariant h (fun _ hstart k => hstart k ▸ plainRegion_empty)
    fun _ _ _ hplain hstep => hplain.exec hstep.1 hstep.2.1 hstep.2.2

theorem leaves_iff {result : Except Fault Region} (h : exec σ call = result.map (put σ i)) :
    Leaves σ i call P ↔ Gives result P := by
  constructor
  · intro ⟨σ', hexec, _, hpoints⟩
    obtain ⟨r', hok, rfl⟩ := ok_of_map (h.symm.trans hexec)
    refine ⟨r', hok, fun x y hx hy => ?_⟩
    have := hpoints x y hx hy
    rwa [put, if_pos rfl] at this
  · intro ⟨r', hok, hpoints⟩
    refine ⟨put σ i r', by rw [h, hok]; rfl, fun k hk => if_neg hk, fun x y hx hy => ?_⟩
    rw [put, if_pos rfl]
    exact hpoints x y hx hy

/-- In regions built by calls that have met their conditions, an operation leaves
the right points exactly if it meets its own. -/
theorem operations_right_iff (σ : Store) (h : BuiltWell σ) (i j : Nat) : (UnionRight σ i j ↔ UnionMet (σ i) (σ j)) ∧
      (IntersectRight σ i j ↔ IntersectMet (σ i) (σ j)) ∧ (SubstractRight σ i j ↔ SubstractMet (σ i) (σ j)) := by
  have hplain := h.allPlain
  have hintersect : exec σ (.intersect i j) = ((skinRegionIntersect (σ i) (σ j)).map Prod.fst).map (put σ i) := by
    rw [exec]
    cases skinRegionIntersect (σ i) (σ j) <;> rfl
  exact ⟨(leaves_iff rfl).trans (gives_union_iff (hplain i) (hplain j)),
    (leaves_iff hintersect).trans (gives_intersect_iff (hplain i) (hplain j)),
    (leaves_iff rfl).trans (gives_substract_iff (hplain i) (hplain j))⟩

theorem XorHolds.met (h : XorHolds r r2) : XorMet r r2 := h.imp_right fun h => h.imp_right And.right

/-- The same for `skin_region_xor`; two calls that meet the condition cancel out. -/
theorem xor_right_iff (σ : Store) (h : BuiltWell σ) (i j : Nat) : (XorRight σ i j ↔ XorHolds (σ i) (σ j)) ∧
      ∀ σ' σ'', i ≠ j → XorHolds (σ i) (σ j) → exec σ (.xor i j) = .ok σ' → XorHolds (σ' i) (σ' j) →
        exec σ' (.xor i j) = .ok σ'' →
        ∀ x y, IsInt x → IsInt y → skinRegionContains (σ'' i) x y = skinRegionContains (σ i) x y := by
  have hiff : ∀ {σ : Store}, BuiltWell σ → (XorRight σ i j ↔ XorHolds (σ i) (σ j)) :=
    fun h => (leaves_iff rfl).trans (gives_xor_iff (h.allPlain i) (h.allPlain j))
  refine ⟨hiff h, fun σ' σ'' hij hfirst hexec hsecond hexec' x y hx hy => ?_⟩
  have h' : BuiltWell σ' := .step (a := .xor i j) h ⟨True.intro, hfirst.met, hexec⟩
  obtain ⟨τ, hτ, hothers, hpoints⟩ := (hiff h).2 hfirst
  obtain ⟨τ', hτ', _, hpoints'⟩ := (hiff h').2 hsecond
  cases hexec.symm.trans hτ
  cases hexec'.symm.trans hτ'
  rw [hpoints' x y hx hy, xorOf, hpoints x y hx hy, xorOf, hothers j hij.symm, Bool.xor_assoc, Bool.xor_self,
    Bool.xor_false]

def squares (x y : Int) : Store :=
  put (put (fun _ => skinRegionInitEmpty) 0 (skinRegionInit 0 0 10 10)) 1
    (skinRegionInit x y (x + 10) (y + 10))

theorem squares_builtWell (hin : InRange x ∧ InRange y ∧ InRange (x + 10) ∧ InRange (y + 10)) : BuiltWell (squares x y) := by
  have hstart : BuiltWell fun _ => skinRegionInitEmpty := .start fun _ => rfl
  have hzero : BuiltWell (put (fun _ => skinRegionInitEmpty) 0 (skinRegionInit 0 0 10 10)) :=
    .step (a := .init 0 0 0 10 10) hstart ⟨by simp only [Call.InRange, InRange]; omega, True.intro, rfl⟩
  exact .step (a := .init 1 x y (x + 10) (y + 10)) hzero ⟨hin, True.intro, rfl⟩

theorem contains_square (x1 y1 x2 y2 : Int) (hin : (InRange x1 ∧ InRange x2) ∧ InRange y1 ∧ InRange y2)
    (hlt : x1 < x2 ∧ y1 < y2) (hx : IsInt x) (hy : IsInt y) :
    skinRegionContains (skinRegionInit x1 y1 x2 y2) x y = true ↔ (x1 ≤ x ∧ x < x2) ∧ y1 ≤ y ∧ y < y2 := by
  rw [skinRegionInit, if_neg (by omega)]
  exact skinRectContains_box hin.1.1 hin.1.2 hin.2.1 hin.2.2 hlt.1 hlt.2 hx hy

theorem rowsWhole_stacked : RowsWhole (unionOf (squares 0 10 0) (squares 0 10 1)) := by
  have hpoint : ∀ x y, IsInt x → IsInt y → (unionOf (squares 0 10 0) (squares 0 10 1) x y = true ↔
      (0 ≤ x ∧ x < 10) ∧ 0 ≤ y ∧ y < 20) := by
    intro x y hx hy
    have hzero := contains_square 0 0 10 10 (by decide) (by decide) hx hy
    have hone := contains_square 0 10 10 20 (by decide) (by decide) hx hy
    rw [unionOf, Bool.or_eq_true, show squares 0 10 0 = skinRegionInit 0 0 10 10 from rfl,
      show squares 0 10 1 = skinRegionInit 0 10 10 20 from rfl, hzero, hone]
    omega
  intro y x1 x2 x3 hy hx1 hx3 h12 h23 hin1 hin3
  have hx2 := hx1.between hx3 h12 h23
  rw [hpoint _ _ hx1 hy] at hin1
  rw [hpoint _ _ hx3 hy] at hin3
  rw [hpoint _ _ hx2 hy]
  omega

/-- Two squares on top of each other, and two that overlap. -/
theorem squares_right : UnionRight (squares 0 10) 0 1 ∧ IntersectRight (squares 5 5) 0 1 ∧
    SubstractRight (squares 5 5) 0 2 := by
  have hstacked : BuiltWell (squares 0 10) :=
    squares_builtWell (by decide)
  have hnear : BuiltWell (squares 5 5) :=
    squares_builtWell (by decide)
  exact ⟨(operations_right_iff _ hstacked 0 1).1.mpr (.inr (.inr ⟨rowsWhole_stacked, by decide⟩)),
    (operations_right_iff _ hnear 0 1).2.1.mpr fun h => absurd h (by decide),
    (operations_right_iff _ hnear 0 2).2.2.mpr (.inr (.inl (by decide)))⟩

theorem BuiltWell.built (h : BuiltWell σ) : Built σ :=
  Lib.Reach.mono h fun _ _ _ hstep => ⟨hstep.1, hstep.2.2⟩

theorem not_leaves (hexec : exec σ call = .ok σ') (hx : IsInt x) (hy : IsInt y)
    (hne : skinRegionContains (σ' i) x y ≠ P x y) : ¬ Leaves σ i call P := by
  intro ⟨σ'', hexec', _, hpoints⟩
  rw [← ok.inj (hexec.symm.trans hexec')] at hpoints
  exact hne (hpoints x y hx hy)

/-- An intersection with an empty region, a difference of squares apart, the union
of two squares side by side, and one that does not fit the temporary store. -/
theorem operations_go_wrong : (Built (squares 20 0) ∧ ¬ IntersectRight (squares 20 0) 0 2 ∧
      ¬ SubstractRight (squares 20 0) 0 1 ∧ ¬ UnionRight (squares 20 0) 0 1) ∧
    (Built (squares 5 5) ∧ ¬ UnionRight (squares 5 5) 0 1) := by
  refine ⟨⟨?_, ?_, ?_, ?_⟩, ?_, ?_⟩
  · exact (squares_builtWell (by decide)).built
  · exact not_leaves (x := 5) (y := 5) rfl (by decide) (by decide) (by decide)
  · exact not_leaves (x := 5) (y := 5) rfl (by decide) (by decide) (by decide)
  · -- the second square is lost
    exact not_leaves (x := 25) (y := 5) rfl (by decide) (by decide) (by decide)
  · exact (squares_builtWell (by decide)).built
  · -- twenty runs are written to a store of eighteen
    intro ⟨σ', hexec, _⟩
    have hfault : exec (squares 5 5) (.union 0 1) = .error .overflow := rfl
    exact absurd (hfault.symm.trans hexec) nofun

/-- Nothing is left of a square and itself. -/
theorem squares_xor_right : XorRight (squares 0 0) 0 1 := by
  have hrows : RowsWhole (differenceOf (squares 0 0 0) (squares 0 0 1)) := by
    intro y x1 _ _ _ _ _ _ _ h1 _
    rw [show squares 0 0 1 = squares 0 0 0 from rfl, differenceOf, Bool.and_not_self] at h1
    exact absurd h1 nofun
  exact (xor_right_iff _ (squares_builtWell (by decide)) 0 1).1.2 (.inr (.inr ⟨fun _ _ _ _ h => h, hrows⟩))

/-- Of squares apart nothing is left, and of squares that overlap the second is lost. -/
theorem xor_goes_wrong : (Built (squares 20 0) ∧ ¬ XorRight (squares 20 0) 0 1) ∧
    Built (squares 5 5) ∧ ¬ XorRight (squares 5 5) 0 1 :=
  ⟨⟨(squares_builtWell (by decide)).built, not_leaves (x := 5) (y := 5) rfl (by decide) (by decide) (by decide)⟩,
    (squares_builtWell (by decide)).built,
    not_leaves (x := 12) (y := 12) rfl (by decide) (by decide) (by decide)⟩

end GemDroid.Skin
