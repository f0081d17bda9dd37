import Mathlib.Data.List.Infix

/-! Putting a text together from its pieces.

A piece is a part of the text and the offset it starts at. Pieces that have come in are kept
in order and apart from each other. A new piece is put behind those that start no later: what
they already hold is cut off its front, and what it holds itself is cut off the pieces behind
it. Nothing that has come in gets lost that way, and the text is there once the pieces follow
each other without a gap. -/
namespace GemDroid.Lib
open List

variable {α : Type} {text : List α}

/-- A part of a text, and where it starts. -/
structure Piece (α : Type) where
  off : Nat
  data : List α
  deriving DecidableEq, Repr

variable {p q : Piece α}

namespace Piece

def stop (p : Piece α) : Nat := p.off + p.data.length

def skip (p : Piece α) (n : Nat) : Piece α := ⟨p.off + n, p.data.drop n⟩

def PartOf (text : List α) (p : Piece α) : Prop := p.data <+: text.drop p.off

variable (p : Piece α)

@[simp] theorem skip_zero : p.skip 0 = p := rfl

theorem off_skip (n : Nat) : (p.skip n).off = p.off + n := rfl

theorem stop_skip {n : Nat} (h : n ≤ p.data.length) : (p.skip n).stop = p.stop := by
  simp only [stop, skip, length_drop]
  omega

theorem PartOf.skip {p : Piece α} (h : p.PartOf text) (n : Nat) : (p.skip n).PartOf text := by
  have hd : p.data.drop n <+: (text.drop p.off).drop n := List.IsPrefix.drop h n
  rw [drop_drop] at hd
  exact hd

end Piece

open Piece

variable {l before after : List (Piece α)} {x : Piece α} {stop i n m : Nat}

/-- Some piece holds the element at offset `i`. -/
def Covers (l : List (Piece α)) (i : Nat) : Prop := ∃ p ∈ l, p.off ≤ i ∧ i < p.stop

def InOrder (l : List (Piece α)) : Prop := l.Pairwise fun p q => p.stop ≤ q.off

@[simp] theorem covers_nil : ¬ Covers ([] : List (Piece α)) i := by simp [Covers]

theorem covers_cons : Covers (x :: l) i ↔ (x.off ≤ i ∧ i < x.stop) ∨ Covers l i := by
  simp [Covers]

theorem covers_append : Covers (before ++ after) i ↔ Covers before i ∨ Covers after i := by
  simp [Covers, or_and_right, exists_or]

/-- Where the first piece starts behind an offset, they all do. -/
theorem InOrder.lt_off (h : InOrder (x :: l)) (hx : i < x.off) (hq : q ∈ x :: l) : i < q.off := by
  rcases mem_cons.1 hq with rfl | hq
  · exact hx
  · have := (pairwise_cons.1 h).1 q hq
    simp only [Piece.stop] at this
    omega

/-- Cut what lies before `stop` off a list of pieces in order. -/
def clip (stop : Nat) : List (Piece α) → List (Piece α)
  | [] => []
  | q :: l =>
    if q.off < stop then
      if stop - q.off < q.data.length then q.skip (stop - q.off) :: l else clip stop l
    else q :: l

/-- Pieces that are apart stay apart when the front of one is cut off. -/
theorem clip_inOrder (h : InOrder l) : InOrder (clip stop l) := by
  induction l with
  | nil => exact h
  | cons q l ih =>
    obtain ⟨hq, hl⟩ := pairwise_cons.1 h
    rw [clip]
    split_ifs with hoff hlen
    · refine pairwise_cons.2 ⟨fun r hr => ?_, hl⟩
      rw [stop_skip q hlen.le]
      exact hq r hr
    · exact ih hl
    · exact h

theorem le_off_of_mem_clip (h : InOrder l) (hq : q ∈ clip stop l) : stop ≤ q.off := by
  induction l with
  | nil => cases hq
  | cons r l ih =>
    obtain ⟨hr, hl⟩ := pairwise_cons.1 h
    rw [clip] at hq
    split_ifs at hq with hoff hlen
    · rcases mem_cons.1 hq with rfl | hq
      · rw [off_skip]
        omega
      · have := hr q hq
        simp only [Piece.stop] at this
        omega
    · exact ih hl hq
    · rcases mem_cons.1 hq with rfl | hq
      · omega
      · have := hr q hq
        simp only [Piece.stop] at this
        omega

/-- Only what lies before `stop` is lost. -/
theorem covers_clip (h : InOrder l) : Covers (clip stop l) i ↔ Covers l i ∧ stop ≤ i := by
  induction l with
  | nil => simp [clip]
  | cons q l ih =>
    obtain ⟨hq, hl⟩ := pairwise_cons.1 h
    -- the pieces behind `q` hold nothing in front of its end
    have hbehind : Covers l i → q.stop ≤ i := by
      intro hc
      obtain ⟨r, hr, hlo, -⟩ := hc
      exact (hq r hr).trans hlo
    rw [clip, covers_cons]
    split_ifs with hoff hlen
    · rw [covers_cons, stop_skip q hlen.le, off_skip]
      have hstop : stop < q.stop := by
        simp only [Piece.stop]
        omega
      constructor
      · rintro (⟨hlo, hhi⟩ | hc)
        · exact ⟨.inl ⟨by omega, hhi⟩, by omega⟩
        · exact ⟨.inr hc, by have := hbehind hc; omega⟩
      · rintro ⟨⟨hlo, hhi⟩ | hc, hs⟩
        · exact .inl ⟨by omega, hhi⟩
        · exact .inr hc
    · have hstop : q.stop ≤ stop := by
        simp only [Piece.stop]
        omega
      rw [ih hl]
      constructor
      · intro ⟨hc, hs⟩
        exact ⟨.inr hc, hs⟩
      · rintro ⟨⟨hlo, hhi⟩ | hc, hs⟩
        · omega
        · exact ⟨hc, hs⟩
    · rw [covers_cons]
      constructor
      · rintro (⟨hlo, hhi⟩ | hc)
        · exact ⟨.inl ⟨hlo, hhi⟩, by omega⟩
        · have := hbehind hc
          simp only [Piece.stop] at this
          exact ⟨.inr hc, by omega⟩
      · exact fun hc => hc.1

def lastStop (l : List (Piece α)) : Nat := (l.getLast?.map Piece.stop).getD 0

theorem stop_le_lastStop (h : InOrder l) (hp : p ∈ l) : p.stop ≤ lastStop l := by
  rcases eq_nil_or_concat l with rfl | ⟨init, z, hl⟩
  · cases hp
  rw [concat_eq_append] at hl
  subst hl
  have hz : lastStop (init ++ [z]) = z.stop := by simp [lastStop]
  rw [hz]
  rcases mem_append.1 hp with hp | hp
  · have := (pairwise_append.1 h).2.2 p hp z (by simp)
    simp only [Piece.stop] at this ⊢
    omega
  · exact (mem_singleton.1 hp) ▸ le_rfl

/-- Put a piece between those that start no later and those that start behind it. A piece
that brings nothing new is left out. -/
def place (before : List (Piece α)) (x : Piece α) (after : List (Piece α)) : Option (List (Piece α)) :=
  let i := lastStop before - x.off
  if 0 < i ∧ x.data.length ≤ i then none
  else some (before ++ x.skip i :: clip x.stop after)

/-- The last piece, where the pieces end before offset `i` or not. -/
theorem exists_of_lt_lastStop (h : i < lastStop l) : ∃ z ∈ l, lastStop l = z.stop := by
  cases hl : l.getLast? with
  | none => simp [lastStop, hl] at h
  | some z => exact ⟨z, mem_of_getLast? hl, by simp [lastStop, hl]⟩

theorem place_inOrder (h : InOrder (before ++ after)) (hp : place before x after = some l) : InOrder l := by
  obtain ⟨hbefore, hafter, hcross⟩ := pairwise_append.1 h
  simp only [place] at hp
  split_ifs at hp with hdrop
  cases hp
  have hfit : lastStop before - x.off ≤ x.data.length := by omega
  refine pairwise_append.2 ⟨hbefore, pairwise_cons.2 ⟨fun q hq => ?_, clip_inOrder hafter⟩, fun p hp q hq => ?_⟩
  · rw [stop_skip x hfit]
    exact le_off_of_mem_clip hafter hq
  · have hlast := stop_le_lastStop hbefore hp
    rcases mem_cons.1 hq with rfl | hq
    · rw [off_skip]
      omega
    · have := le_off_of_mem_clip hafter hq
      simp only [Piece.stop] at this hlast ⊢
      omega

/-- Nothing that was there or has come in is lost. -/
theorem covers_place (h : InOrder (before ++ after)) (hb : ∀ p ∈ before, p.off ≤ x.off)
    (ha : ∀ q ∈ after, x.off < q.off) (hp : place before x after = some l) :
    Covers l i ↔ Covers (before ++ after) i ∨ (x.off ≤ i ∧ i < x.stop) := by
  obtain ⟨hbefore, hafter, hcross⟩ := pairwise_append.1 h
  simp only [place] at hp
  split_ifs at hp with hdrop
  cases hp
  have hfit : lastStop before - x.off ≤ x.data.length := by omega
  -- in front of the end of the pieces before it, `x` holds nothing new
  have hfront : x.off ≤ i → i < lastStop before → Covers before i := by
    intro hlo hhi
    obtain ⟨z, hz, hstop⟩ := exists_of_lt_lastStop hhi
    exact ⟨z, hz, (hb z hz).trans hlo, hstop ▸ hhi⟩
  have hback : Covers after i → x.off ≤ i ∧ lastStop before ≤ i := by
    intro hc
    obtain ⟨q, hq, hlo, -⟩ := hc
    refine ⟨(ha q hq).le.trans hlo, ?_⟩
    by_contra hlt
    obtain ⟨z, hz, hstop⟩ := exists_of_lt_lastStop (not_le.1 hlt)
    have := hcross z hz q hq
    omega
  rw [covers_append, covers_cons, covers_clip hafter, stop_skip x hfit, off_skip, covers_append]
  constructor
  · rintro (hc | ⟨hlo, hhi⟩ | ⟨hc, -⟩)
    · exact .inl (.inl hc)
    · exact .inr ⟨by omega, hhi⟩
    · exact .inl (.inr hc)
  · rintro ((hc | hc) | ⟨hlo, hhi⟩)
    · exact .inl hc
    · obtain ⟨hlo, hlast⟩ := hback hc
      by_cases hhi : x.stop ≤ i
      · exact .inr (.inr ⟨hc, hhi⟩)
      · exact .inr (.inl ⟨by omega, by omega⟩)
    · by_cases hlast : i < lastStop before
      · exact .inl (hfront hlo hlast)
      · exact .inr (.inl ⟨by omega, hhi⟩)

/-- A piece that is left out brings nothing new. -/
theorem covers_of_place_none (hb : ∀ p ∈ before, p.off ≤ x.off)
    (hp : place before x after = none) (hlo : x.off ≤ i) (hhi : i < x.stop) : Covers (before ++ after) i := by
  simp only [place] at hp
  split_ifs at hp with hdrop
  simp only [Piece.stop] at hhi
  have hlast : i < lastStop before := by omega
  obtain ⟨z, hz, hstop⟩ := exists_of_lt_lastStop hlast
  exact ⟨z, mem_append_left _ hz, (hb z hz).trans hlo, hstop ▸ hlast⟩

/-- Follow the pieces from offset `n` on as long as there is no gap. -/
def gapless (n : Nat) : List (Piece α) → Option Nat
  | [] => some n
  | p :: l => if p.off ≠ n then none else gapless (n + p.data.length) l

theorem covers_of_gapless (h : gapless n l = some m) (hlo : n ≤ i) (hhi : i < m) : Covers l i := by
  induction l generalizing n with
  | nil =>
    cases h
    omega
  | cons p l ih =>
    simp only [gapless, ne_eq, ite_not] at h
    split_ifs at h with hoff
    rw [covers_cons]
    by_cases hp : i < p.stop
    · exact .inl ⟨by omega, hp⟩
    · refine .inr (ih h ?_)
      simp only [Piece.stop] at hp
      omega

theorem gapless_of_covers (h : InOrder l) (hnm : n ≤ m) (hlo : ∀ p ∈ l, n ≤ p.off)
    (hhi : ∀ p ∈ l, p.stop ≤ m) (hc : ∀ i, n ≤ i → i < m → Covers l i) : gapless n l = some m := by
  induction l generalizing n with
  | nil =>
    have : ¬ n < m := fun hlt => covers_nil (hc n le_rfl hlt)
    simp only [gapless, Option.some.injEq]
    omega
  | cons p l ih =>
    obtain ⟨hp, hl⟩ := pairwise_cons.1 h
    have hplo := hlo p (by simp)
    have hphi := hhi p (by simp)
    have hoff : p.off = n := by
      simp only [Piece.stop] at hphi
      by_cases hlt : n < m
      · -- the piece that holds offset `n` is `p`, or starts behind `p`
        rcases covers_cons.1 (hc n le_rfl hlt) with ⟨hle, -⟩ | ⟨q, hq, hle, -⟩
        · omega
        · have := hp q hq
          simp only [Piece.stop] at this
          omega
      · omega
    have hstop : n + p.data.length = p.stop := by rw [Piece.stop, hoff]
    rw [gapless, if_neg (by simp [hoff]), hstop]
    refine ih hl hphi hp (fun q hq => hhi q (by simp [hq])) fun i hi him => ?_
    rcases covers_cons.1 (hc i (by omega) him) with ⟨-, hlt⟩ | hcov
    · omega
    · exact hcov

/-- Pieces without a gap are followed to the end of the last one. -/
theorem lastStop_of_gapless (h : gapless n l = some m) (hne : l ≠ []) : lastStop l = m := by
  induction l generalizing n with
  | nil => exact absurd rfl hne
  | cons p l ih =>
    simp only [gapless, ne_eq, ite_not] at h
    split_ifs at h with hoff
    cases l with
    | nil =>
      cases h
      simp [lastStop, Piece.stop, hoff]
    | cons q l =>
      rw [← ih h (by simp)]
      simp [lastStop]

theorem flatten_of_gapless (h : gapless n l = some m) (hl : ∀ p ∈ l, p.PartOf text) :
    (l.map Piece.data).flatten <+: text.drop n ∧ m = n + (l.map Piece.data).flatten.length := by
  induction l generalizing n with
  | nil =>
    cases h
    simp
  | cons p l ih =>
    simp only [gapless, ne_eq, ite_not] at h
    split_ifs at h with hoff
    obtain ⟨hrest, hlen⟩ := ih h fun q hq => hl q (by simp [hq])
    have hp : p.data <+: text.drop n := hoff ▸ hl p (by simp)
    obtain ⟨rest, hrest'⟩ := hp
    refine ⟨?_, by simp only [map_cons, flatten_cons, length_append]; omega⟩
    have htail : text.drop (n + p.data.length) = rest := by
      rw [← drop_drop, ← hrest', drop_left]
    rw [htail] at hrest
    rw [map_cons, flatten_cons, ← hrest']
    exact (prefix_append_right_inj _).2 hrest

/-- Pieces of a text without a gap up to its end give the text. -/
theorem flatten_eq_of_gapless (h : gapless 0 l = some text.length)
    (hl : ∀ p ∈ l, p.PartOf text) : (l.map Piece.data).flatten = text := by
  obtain ⟨hpre, hlen⟩ := flatten_of_gapless h hl
  rw [drop_zero] at hpre
  exact hpre.eq_of_length (by omega)

end GemDroid.Lib
