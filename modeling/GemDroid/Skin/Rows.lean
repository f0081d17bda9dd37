import GemDroid.Skin.Region

/-! What coalescing leaves of a scanline and of the bands. Of the spans of a
scanline only those are kept that follow each other from the first on without a
gap: the first run of the scanline. Bands are put together only where they meet
and have the same spans, so a line finds in the coalesced runs the coalesced
scanline that it had before. -/
namespace GemDroid.Skin

variable {x pleft : Int}

open Lib.Overlay List

/-! ### The first run of a scanline -/

def inRow (spans : List Span) (x : Int) : Bool := (valueAt spans x).isSome

/-- From the first span up to the end that coalescing gives it. -/
def firstRun : List Span → Int → Bool
  | [], _ => false
  | s :: spans, x => decide (s.lo ≤ x ∧ x < lastRight s.hi spans)

/-- Between two positions of `P` lies no other. -/
def Connected (P : Int → Bool) : Prop :=
  ∀ x1 x2 x3 : Int, x1 ≤ x2 → x2 ≤ x3 → P x1 = true → P x3 = true → P x2 = true

/-- Every span begins where the one before it ends. -/
def Chained : Int → List Span → Prop
  | _, [] => True
  | pright, s :: spans => s.lo = pright ∧ Chained s.hi spans

variable {n pright : Int} {spans : List Span} {s : Span} {C : Int → Prop} {prev : Band}
  {bands : List Band}

theorem lastRight_of_lt (h : SortedFrom n spans) (hn : pright < n) : lastRight pright spans = pright := by
  induction spans generalizing n with
  | nil => rfl
  | cons s spans ih =>
    obtain ⟨hle, hlt, hs⟩ := h
    rw [lastRight, if_neg (by omega), ih hs (by omega)]

theorem inRow_cons (s : Span) (spans : List Span) (x : Int) :
    inRow (s :: spans) x = (decide (s.lo ≤ x ∧ x < s.hi) || inRow spans x) := by
  rw [inRow, valueAt]
  by_cases h : s.lo ≤ x ∧ x < s.hi
  · rw [if_pos h, decide_eq_true h]
    rfl
  · rw [if_neg h, decide_eq_false h]
    rfl

theorem inRow_of_lt (h : SortedFrom n spans) (hx : x < n) : inRow spans x = false := by
  rw [inRow, valueAt_of_lt h hx]
  rfl

section
variable (h : SortedFrom pright spans)
include h

theorem le_lastRight : pright ≤ lastRight pright spans := by
  induction spans generalizing pright with
  | nil => exact Int.le_refl _
  | cons s spans ih =>
    obtain ⟨hle, hlt, hs⟩ := h
    rw [lastRight]
    split
    · have := ih hs
      omega
    · exact ih (hs.mono (by omega))

theorem scanlineContains_coalesceSpans (x : Int) :
    scanlineContains (coalesceSpans pleft pright spans) x = true ↔ pleft ≤ x ∧ x < lastRight pright spans := by
  induction spans generalizing pright with
  | nil =>
    rw [coalesceSpans, scanlineContains, scanlineContains, lastRight]
    simp only
    split
    · simp only [Bool.false_eq_true, false_iff]
      omega
    split
    · simp only [true_iff]
      omega
    · simp only [Bool.false_eq_true, false_iff]
      omega
  | cons s spans ih =>
    obtain ⟨hle, hlt, hs⟩ := h
    rw [coalesceSpans, lastRight]
    split
    · exact ih hs
    have hs' : SortedFrom pright spans := hs.mono (by omega)
    have hlast := le_lastRight hs'
    rw [scanlineContains]
    simp only
    split
    · simp only [Bool.false_eq_true, false_iff]
      omega
    · split
      · simp only [true_iff]
        omega
      · exact ih hs'

theorem inRow_of_chained (hc : Chained pright spans) (x : Int) :
    inRow spans x = decide (pright ≤ x ∧ x < lastRight pright spans) := by
  induction spans generalizing pright with
  | nil =>
    rw [lastRight, decide_eq_false (by omega)]
    rfl
  | cons s spans ih =>
    obtain ⟨hle, hlt, hs⟩ := h
    obtain ⟨heq, hc⟩ := hc
    have hlast := le_lastRight hs
    rw [inRow_cons, ih hs hc, lastRight, if_pos heq, Bool.eq_iff_iff]
    simp only [Bool.or_eq_true, decide_eq_true_eq]
    omega

/-- Where the chain breaks, the end of the first run is free and something
comes after it. -/
theorem gap_of_not_chained (hc : ¬ Chained pright spans) :
    inRow spans (lastRight pright spans) = false ∧ ∃ z, lastRight pright spans < z ∧ inRow spans z = true := by
  induction spans generalizing pright with
  | nil => exact absurd True.intro hc
  | cons s spans ih =>
    obtain ⟨hle, hlt, hs⟩ := h
    rw [lastRight]
    by_cases heq : s.lo = pright
    · obtain ⟨hfree, z, hz, hin⟩ := ih hs fun h => hc ⟨heq, h⟩
      have hlast := le_lastRight hs
      rw [if_pos heq]
      refine ⟨?_, z, hz, ?_⟩
      · rw [inRow_cons, hfree, decide_eq_false (by omega)]
        rfl
      · rw [inRow_cons, hin, Bool.or_true]
    · rw [if_neg heq, lastRight_of_lt hs (by omega)]
      refine ⟨inRow_of_lt (show SortedFrom s.lo (s :: spans) from ⟨Int.le_refl _, hlt, hs⟩) (by omega),
        s.lo, by omega, ?_⟩
      rw [inRow_cons, decide_eq_true ⟨Int.le_refl _, hlt⟩]
      rfl

end

theorem scanlineContains_runsCoalesceBand (h : SortedFrom n spans)
    (x : Int) : scanlineContains (runsCoalesceBand spans) x = firstRun spans x := by
  cases spans with
  | nil => rfl
  | cons s spans =>
    rw [Bool.eq_iff_iff, firstRun, decide_eq_true_eq]
    exact scanlineContains_coalesceSpans h.2.2 x

section
variable (h : SortedFrom n (s :: spans))
include h

theorem inRow_of_firstRun (hx : firstRun (s :: spans) x = true) : inRow (s :: spans) x = true := by
  induction spans generalizing n s with
  | nil =>
    rw [inRow_cons, Bool.or_eq_true]
    exact .inl hx
  | cons s' spans ih =>
    obtain ⟨hn, hlt, hle, hlt', hs⟩ := h
    rw [firstRun, lastRight, decide_eq_true_eq] at hx
    rw [inRow_cons, Bool.or_eq_true, decide_eq_true_eq]
    by_cases hin : x < s.hi
    · exact .inl ⟨hx.1, hin⟩
    split at hx
    · refine .inr (ih ⟨hle, hlt', hs⟩ ?_)
      rw [firstRun, decide_eq_true_eq]
      omega
    · rw [lastRight_of_lt hs (by omega)] at hx
      omega

theorem firstRun_of_chained (hc : Chained s.hi spans) (x : Int) : firstRun (s :: spans) x = inRow (s :: spans) x := by
  have hlast := le_lastRight h.2.2
  have hlt := h.2.1
  rw [inRow_cons, inRow_of_chained h.2.2 hc, firstRun, Bool.eq_iff_iff]
  simp only [Bool.or_eq_true, decide_eq_true_eq]
  omega

theorem chained_of_connected (hconn : Connected (inRow (s :: spans))) : Chained s.hi spans := by
  by_contra hc
  obtain ⟨hfree, z, hz, hin⟩ := gap_of_not_chained h.2.2 hc
  have hlast := le_lastRight h.2.2
  have hlt := h.2.1
  have hfirst : inRow (s :: spans) s.lo = true := by
    rw [inRow_cons, decide_eq_true ⟨Int.le_refl _, hlt⟩]
    rfl
  have hlater : inRow (s :: spans) z = true := by rw [inRow_cons, hin, Bool.or_true]
  have hmid := hconn s.lo _ z (show s.lo ≤ lastRight s.hi spans by omega) (by omega) hfirst hlater
  rw [inRow_cons, hfree, decide_eq_false (by omega)] at hmid
  exact absurd hmid nofun

end

theorem firstRun_eq_inRow_iff (h : SortedFrom n spans) :
    (∀ x, firstRun spans x = inRow spans x) ↔ Connected (inRow spans) := by
  cases spans with
  | nil => exact ⟨fun _ => nofun, fun _ _ => rfl⟩
  | cons s spans =>
    constructor
    · intro heq x1 x2 x3 h12 h23 h1 h3
      rw [← heq, firstRun, decide_eq_true_eq] at h1 h3 ⊢
      omega
    · intro hconn x
      exact firstRun_of_chained h (chained_of_connected h hconn) x

theorem coalesceSpans_of_chained (hc : Chained pright spans) :
    coalesceSpans pleft pright spans = [⟨pleft, lastRight pright spans, ()⟩] := by
  induction spans generalizing pright with
  | nil => rfl
  | cons s spans ih =>
    rw [coalesceSpans, if_pos hc.1, lastRight, if_pos hc.1, ih hc.2]

theorem coalesceSpans_ne_nil (pleft pright : Int) (spans : List Span) : coalesceSpans pleft pright spans ≠ [] := by
  induction spans generalizing pright with
  | nil => exact cons_ne_nil _ _
  | cons s spans ih =>
    rw [coalesceSpans]
    split
    · exact ih _
    · exact cons_ne_nil _ _

theorem runsCoalesceBand_of_connected (h : SortedFrom n (s :: spans)) (hconn : Connected (inRow (s :: spans))) :
    runsCoalesceBand (s :: spans) = [⟨s.lo, lastRight s.hi spans, ()⟩] :=
  coalesceSpans_of_chained (chained_of_connected h hconn)

theorem lastRight_ends (hp : C pright) (h : Ends C spans) : C (lastRight pright spans) := by
  induction spans generalizing pright with
  | nil => exact hp
  | cons s spans ih =>
    have hs : Ends C spans := (forall_mem_cons.mp h).2
    rw [lastRight]
    split
    · exact ih (h s mem_cons_self).2 hs
    · exact ih hp hs

/-! ### The bands -/

theorem runsFindY_eq_valueAt {runs : List Band} (h : SortedFrom n runs) (y : Int) :
    runsFindY runs y = valueAt runs y := by
  induction runs generalizing n with
  | nil => rfl
  | cons b runs ih =>
    obtain ⟨_, hlt, hs⟩ := h
    rw [runsFindY, valueAt, ih hs]
    by_cases hlo : y < b.lo
    · rw [if_pos hlo, if_neg (by omega), valueAt_of_lt hs (by omega)]
    · rw [if_neg hlo]
      by_cases hhi : y < b.hi
      · rw [if_pos hhi, if_pos ⟨by omega, hhi⟩]
      · rw [if_neg hhi, if_neg (by omega)]

theorem sortedFrom_coalesceBands (h : SortedFrom n (prev :: bands)) : SortedFrom n (coalesceBands prev bands) := by
  induction bands generalizing n prev with
  | nil => exact h
  | cons b bands ih =>
    obtain ⟨hn, hprev, hle, hlt, hs⟩ := h
    rw [coalesceBands]
    split
    · exact ih ⟨hn, by simp only; omega, hs⟩
    · exact ⟨hn, hprev, ih ⟨hle, hlt, hs⟩⟩

theorem valueAt_coalesceBands (h : SortedFrom n (prev :: bands)) (y : Int) : valueAt (coalesceBands prev bands) y =
      if prev.lo ≤ y ∧ y < prev.hi then some prev.val else (valueAt bands y).map runsCoalesceBand := by
  induction bands generalizing n prev with
  | nil => rfl
  | cons b bands ih =>
    obtain ⟨hn, hprev, hle, hlt, hs⟩ := h
    rw [coalesceBands, valueAt]
    split
    · -- the band is put to the one before it, which has the same spans
      rename_i heq
      rw [ih (show SortedFrom n (⟨prev.lo, b.hi, prev.val⟩ :: bands) from
        ⟨hn, by simp only; omega, hs⟩)]
      simp only
      by_cases hin : b.lo ≤ y ∧ y < b.hi
      · rw [if_pos ⟨by omega, hin.2⟩, if_neg (by omega), if_pos hin, heq.2]
        rfl
      · rw [if_neg hin]
        by_cases hp : prev.lo ≤ y ∧ y < prev.hi
        · rw [if_pos hp, if_pos ⟨hp.1, by omega⟩]
        · rw [if_neg hp, if_neg (by omega)]
    · rw [valueAt, ih (show SortedFrom prev.hi (⟨b.lo, b.hi, runsCoalesceBand b.val⟩ :: bands) from
        ⟨hle, hlt, hs⟩)]
      simp only
      split
      · rfl
      · split <;> rfl

theorem sortedFrom_runsCoalesce (h : SortedFrom n bands) : SortedFrom n (runsCoalesce bands) := by
  cases bands with
  | nil => exact True.intro
  | cons b bands =>
    exact sortedFrom_coalesceBands (show SortedFrom n (⟨b.lo, b.hi, runsCoalesceBand b.val⟩ :: bands) from h)

theorem valueAt_runsCoalesce (h : SortedFrom n bands) (y : Int) :
    valueAt (runsCoalesce bands) y = (valueAt bands y).map runsCoalesceBand := by
  cases bands with
  | nil => rfl
  | cons b bands =>
    rw [runsCoalesce, valueAt_coalesceBands
      (show SortedFrom n (⟨b.lo, b.hi, runsCoalesceBand b.val⟩ :: bands) from h), valueAt]
    split <;> rfl

theorem coalesceBands_ne_nil (prev : Band) (bands : List Band) : coalesceBands prev bands ≠ [] := by
  induction bands generalizing prev with
  | nil => exact cons_ne_nil _ _
  | cons b bands ih =>
    rw [coalesceBands]
    split
    · exact ih _
    · exact cons_ne_nil _ _

theorem ends_coalesceBands (h : Ends C (prev :: bands)) : Ends C (coalesceBands prev bands) := by
  induction bands generalizing prev with
  | nil => exact h
  | cons b bands ih =>
    have hprev := h prev mem_cons_self
    have hb := h b (mem_cons_of_mem _ mem_cons_self)
    have hrest : Ends C bands := fun c hc =>
      h c (mem_cons_of_mem _ (mem_cons_of_mem _ hc))
    rw [coalesceBands]
    split
    · exact ih (ends_cons hprev.1 hb.2 hrest)
    · exact ends_cons hprev.1 hprev.2 (ih (ends_cons hb.1 hb.2 hrest))

theorem ends_runsCoalesce (h : Ends C bands) : Ends C (runsCoalesce bands) := by
  cases bands with
  | nil => exact nofun
  | cons b bands =>
    have hb := h b mem_cons_self
    exact ends_coalesceBands (ends_cons hb.1 hb.2 (forall_mem_cons.mp h).2)

theorem val_mem_coalesceBands : ∀ b ∈ coalesceBands prev bands,
      b.val = prev.val ∨ ∃ c ∈ bands, b.val = runsCoalesceBand c.val := by
  induction bands generalizing prev with
  | nil =>
    intro b hb
    exact .inl (congrArg Piece.val (mem_singleton.mp hb))
  | cons c bands ih =>
    intro b hb
    rw [coalesceBands] at hb
    split at hb
    · obtain h | ⟨d, hd, h⟩ := ih b hb
      · exact .inl h
      · exact .inr ⟨d, mem_cons_of_mem _ hd, h⟩
    cases mem_cons.mp hb with
    | inl heq => exact .inl (congrArg Piece.val heq)
    | inr hb =>
      obtain h | ⟨d, hd, h⟩ := ih b hb
      · exact .inr ⟨c, mem_cons_self, h⟩
      · exact .inr ⟨d, mem_cons_of_mem _ hd, h⟩

theorem val_mem_runsCoalesce : ∀ b ∈ runsCoalesce bands, ∃ c ∈ bands, b.val = runsCoalesceBand c.val := by
  cases bands with
  | nil => exact nofun
  | cons c bands =>
    intro b hb
    obtain h | ⟨d, hd, h⟩ := val_mem_coalesceBands b hb
    · exact ⟨c, mem_cons_self, h⟩
    · exact ⟨d, mem_cons_of_mem _ hd, h⟩

end GemDroid.Skin
