import GemDroid.Lib.Overlay
import Mathlib.Algebra.Ring.Int.Defs
import Mathlib.Algebra.Ring.Nat

/-! The regions of the skin (`android/skin/region.c`, with the rectangles of
`android/skin/rect.c`). A region is empty, a rectangle, or complex: then it has
runs, bands of lines from top to bottom with the spans of their scanline. The
runs are kept here as the bands that they encode. Coordinates are below the
sentinel `0x7fff` in magnitude, so that the conversions to the 16 bits of a run
change none of them and no coordinate is taken for the end of a scanline or of
the runs. The store of a region's runs is counted and is copied before it is
edited when two regions share it, so that regions are values.

An operation walks along the runs of both regions and writes those of the result
to a temporary store of three times the larger count. Nothing checks that they
fit; a write behind the end of the store is a fault here. -/
namespace GemDroid.Skin

open Lib.Overlay

/-! ### Rectangles and boxes -/

structure Rect where
  x : Int
  y : Int
  w : Int
  h : Int
deriving DecidableEq, Repr

structure Box where
  x1 : Int
  y1 : Int
  x2 : Int
  y2 : Int
deriving DecidableEq, Repr

inductive Overlap where
  | outside
  | inside
  | overlap
deriving DecidableEq, Repr

def unsigned (n : Int) : Int := n % 2 ^ 32

def skinRectContains (r : Rect) (x y : Int) : Bool :=
  decide (unsigned (x - r.x) < unsigned r.w) && decide (unsigned (y - r.y) < unsigned r.h)

def skinBoxFromRect (r : Rect) : Box :=
  ⟨r.x, r.y, r.w + r.x, r.h + r.y⟩

def skinBoxToRect (box : Box) : Rect :=
  ⟨box.x1, box.y1, box.x2 - box.x1, box.y2 - box.y1⟩

def skinRectContainsRect (r1 r2 : Rect) : Overlap :=
  let a := skinBoxFromRect r1
  let b := skinBoxFromRect r2
  if a.x2 ≤ b.x1 ∨ b.x2 ≤ a.x1 ∨ a.y2 ≤ b.y1 ∨ b.y2 ≤ a.y1 then .outside
  else if b.x1 ≥ a.x1 ∧ b.x2 ≤ a.x2 ∧ b.y1 ≥ a.y1 ∧ b.y2 ≤ a.y2 then .inside
  else .overlap

def skinRectTranslate (r : Rect) (dx dy : Int) : Rect :=
  { r with x := r.x + dx, y := r.y + dy }

/-! ### Regions -/

/-- `XLEFT XRIGHT`. -/
abbrev Span := Piece Unit

/-- `YTOP YBOTTOM` and the spans of the scanline. -/
abbrev Band := Piece (List Span)

inductive Runs where
  | empty
  | rect
  | complex (runs : List Band)
deriving DecidableEq, Repr

structure Region where
  bounds : Rect
  runs : Runs
deriving DecidableEq, Repr

/-- A write behind the end of the temporary store. -/
inductive Fault where
  | overflow
deriving DecidableEq, Repr

def regionIsEmpty (r : Region) : Bool := decide (r.runs = .empty)

def skinRegionInitEmpty : Region := ⟨⟨0, 0, 0, 0⟩, .empty⟩

def skinRegionInit (x1 y1 x2 y2 : Int) : Region :=
  if x1 ≥ x2 ∨ y1 ≥ y2 then skinRegionInitEmpty
  else ⟨⟨x1, y1, x2 - x1, y2 - y1⟩, .rect⟩

def skinRegionInitRect : Option Rect → Region
  | none => skinRegionInitEmpty
  | some rect =>
    if rect.w ≤ 0 ∨ rect.h ≤ 0 then skinRegionInitEmpty else ⟨rect, .rect⟩

def skinRegionInitBox : Option Box → Region
  | none => skinRegionInitEmpty
  | some box => skinRegionInit box.x1 box.y1 box.x2 box.y2

def skinRegionInitCopy : Option Region → Region
  | none => skinRegionInitEmpty
  | some src => if regionIsEmpty src then skinRegionInitEmpty else src

def translateSpan (dx : Int) (s : Span) : Span := ⟨s.lo + dx, s.hi + dx, ()⟩

def translateBand (dx dy : Int) (b : Band) : Band :=
  ⟨b.lo + dy, b.hi + dy, b.val.map (translateSpan dx)⟩

def skinRegionTranslate (r : Region) (dx dy : Int) : Region :=
  match r.runs with
  | .empty => r
  | .rect => { r with bounds := skinRectTranslate r.bounds dx dy }
  | .complex runs => ⟨skinRectTranslate r.bounds dx dy, .complex (runs.map (translateBand dx dy))⟩

def runsFindY : List Band → Int → Option (List Span)
  | [], _ => none
  | b :: runs, y =>
    if y < b.lo then none
    else if y < b.hi then some b.val
    else runsFindY runs y

def scanlineContains : List Span → Int → Bool
  | [], _ => false
  | s :: spans, x =>
    if x < s.lo then false
    else if x < s.hi then true
    else scanlineContains spans x

def skinRegionContains (r : Region) (x y : Int) : Bool :=
  match r.runs with
  | .empty => false
  | .rect => skinRectContains r.bounds x y
  | .complex runs =>
    match runsFindY runs y with
    | none => false
    | some spans => scanlineContains spans x

/-! ### Coalescing -/

/-- The loop of `runs_coalesce_band` behind the first span. A span that begins
where the last one ended prolongs it; at any other the last span is written, and
`pleft` and `pright` stay. -/
def coalesceSpans (pleft pright : Int) : List Span → List Span
  | [] => [⟨pleft, pright, ()⟩]
  | s :: spans =>
    if s.lo = pright then coalesceSpans pleft s.hi spans
    else ⟨pleft, pright, ()⟩ :: coalesceSpans pleft pright spans

def lastRight (pright : Int) : List Span → Int
  | [] => pright
  | s :: spans => if s.lo = pright then lastRight s.hi spans else lastRight pright spans

def runsCoalesceBand : List Span → List Span
  | [] => []
  | s :: spans => coalesceSpans s.lo s.hi spans

/-- The loop of `runs_coalesce` with the band written last in `prev`. The runs
are read and written in one store; what is written never passes what is still to
be read. -/
def coalesceBands (prev : Band) : List Band → List Band
  | [] => [prev]
  | b :: bands =>
    if prev.hi = b.lo ∧ prev.val = runsCoalesceBand b.val then
      coalesceBands ⟨prev.lo, b.hi, prev.val⟩ bands
    else prev :: coalesceBands ⟨b.lo, b.hi, runsCoalesceBand b.val⟩ bands

def runsCoalesce : List Band → List Band
  | [] => []
  | b :: bands => coalesceBands ⟨b.lo, b.hi, runsCoalesceBand b.val⟩ bands

/-- What `runs_coalesce` and `runs_coalesce_band` make of `minmax` at a band. -/
def minmaxBand (minmax : Box) (b : Band) : Box :=
  match b.val with
  | [] => { minmax with y1 := min minmax.y1 b.lo, y2 := max minmax.y2 b.hi }
  | s :: spans =>
    ⟨min minmax.x1 s.lo, min minmax.y1 b.lo, max minmax.x2 (lastRight s.hi spans), max minmax.y2 b.hi⟩

/-! ### The operator -/

/-- The flags `FLAG_REGION_1`, `FLAG_REGION_2` and `FLAG_REGION_BOTH`. -/
structure Wanted where
  one : Bool
  two : Bool
  both : Bool
deriving DecidableEq, Repr

def Wanted.picks {α β : Type} (wanted : Wanted) : Cell α β → Bool
  | .one _ => wanted.one
  | .two _ => wanted.two
  | .both _ _ => wanted.both

def bandRuns (b : Band) : Nat := 3 + 2 * b.val.length

/-- The count of a store with these runs, the sentinel at their end included. -/
def runsGetCount (runs : List Band) : Nat := (runs.map bandRuns).sum + 1

def runsSetRect (rect : Rect) : List Band :=
  [⟨rect.y, rect.y + rect.h, [⟨rect.x, rect.x + rect.w, ()⟩]⟩]

def operatorRuns (r : Region) : List Band :=
  match r.runs with
  | .empty => []
  | .rect => runsSetRect r.bounds
  | .complex runs => runs

/-- The spans of a common band: the walk along two scanlines, with the flags
deciding what is written. -/
def commonSpans (wanted : Wanted) (spans1 spans2 : List Span) : List Span :=
  keep (fun c => if wanted.picks c then some () else none) (overlay spans1 spans2)

def scanline (wanted : Wanted) : Cell (List Span) (List Span) → Option (List Span)
  | .one spans1 => if wanted.one then some spans1 else none
  | .two spans2 => if wanted.two then some spans2 else none
  | .both spans1 spans2 => some (commonSpans wanted spans1 spans2)

/-- `region_operator_do`: the bands in the order in which they are written. The
head of a common band is written before its spans are known; if there are none,
the next band is written over it. -/
def regionOperatorDo (wanted : Wanted) (runs1 runs2 : List Band) : List Band :=
  keep (scanline wanted) (overlay runs1 runs2)

/-- How far `region_operator_do` writes into the store, `pos` runs being there. -/
def runsWritten (pos : Nat) : List Band → Nat
  | [] => pos + 1
  | b :: bands =>
    if b.val = [] then max (pos + 2) (runsWritten pos bands)
    else runsWritten (pos + bandRuns b) bands

/-- `INT_MAX` on the left and `INT_MIN` on the right. -/
def minmaxInit : Box := ⟨2 ^ 31 - 1, 2 ^ 31 - 1, -2 ^ 31, -2 ^ 31⟩

def regionOperatorDone (bands : List Band) : Region :=
  match bands with
  | [] => skinRegionInitEmpty
  | _ :: _ =>
    let runs := runsCoalesce bands
    let bounds := skinBoxToRect (bands.foldl minmaxBand minmaxInit)
    if runsGetCount runs = 1 then skinRegionInitEmpty
    else if runsGetCount runs = 6 then ⟨bounds, .rect⟩
    else ⟨bounds, .complex runs⟩

def regionOperator (wanted : Wanted) (r1 r2 : Region) : Except Fault Region :=
  let runs1 := operatorRuns r1
  let runs2 := operatorRuns r2
  let bands := regionOperatorDo wanted runs1 runs2
  if 3 * max (runsGetCount runs1) (runsGetCount runs2) < runsWritten 0 bands then .error .overflow
  else .ok (regionOperatorDone (bands.filter fun b => decide (b.val ≠ [])))

/-! ### The operations -/

def skinRegionIntersect (r r2 : Region) : Except Fault (Region × Bool) :=
  if regionIsEmpty r then .ok (r, false)
  else if regionIsEmpty r2 then .ok (r, true)
  else if skinRectContainsRect r.bounds r2.bounds = .outside then .ok (skinRegionInitEmpty, false)
  else (regionOperator ⟨false, false, true⟩ r r2).map fun r' => (r', regionIsEmpty r')

def skinRegionUnion (r r2 : Region) : Except Fault Region :=
  if regionIsEmpty r then .ok (skinRegionInitCopy (some r2))
  else if regionIsEmpty r2 then .ok r
  else regionOperator ⟨true, true, true⟩ r r2

def skinRegionSubstract (r r2 : Region) : Except Fault Region :=
  if regionIsEmpty r ∨ regionIsEmpty r2 then .ok r
  else if skinRectContainsRect r.bounds r2.bounds = .outside then .ok skinRegionInitEmpty
  else regionOperator ⟨true, false, false⟩ r r2

def skinRegionXor (r r2 : Region) : Except Fault Region :=
  if regionIsEmpty r then .ok (skinRegionInitCopy (some r2))
  else if regionIsEmpty r2 then .ok r
  else if skinRectContainsRect r.bounds r2.bounds = .outside then .ok skinRegionInitEmpty
  else regionOperator ⟨true, false, false⟩ r r2

end GemDroid.Skin
