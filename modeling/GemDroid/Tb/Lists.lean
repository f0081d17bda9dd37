import GemDroid.Tb.Views

/-! Taking a block off its hash chain and its page lists.

The hash chains and the page lists are null-terminated families. `on` says where
each block, or each of its two page links, is; the removals of the source find
the cell to write by walking the list and change `on` at one place. -/
namespace GemDroid.Tb
open List
open Function (update_of_ne update)
open Lib.LinkPath

def hashShape : Shape HashCell TbId Nat where
  cell := .next
  head := .head
  stop _ := none
  cell_inj _ _ h := HashCell.next.inj h
  head_inj _ _ h := HashCell.head.inj h

def pageShape : Shape PageCell (TbId × Fin 2) Nat where
  cell := pageCell
  head := .first
  stop _ := none
  cell_inj _ _ h := Prod.ext (PageCell.next.inj h).1 (PageCell.next.inj h).2
  head_inj _ _ h := PageCell.first.inj h

def HashLists (s : State) (on : TbId → Option Nat) : Prop :=
  Lists hashShape (readHash s) (fun _ => True) on

def PageLists (s : State) (on : TbId × Fin 2 → Option Nat) : Prop :=
  Lists pageShape (readPage s) (fun _ => True) on

section Fuel

theorem length_le_of_lt {l : List TbId} {N : Nat} (hn : l.Nodup) (hlt : ∀ t ∈ l, t < N) : l.length ≤ N := by
  have hsub : l ⊆ List.range N := fun t ht => mem_range.mpr (hlt t ht)
  simpa using (hn.subperm hsub).length_le

theorem length_le_of_slots {α : Type} (f : TbId × Fin 2 → α) {l : List α} {N : Nat} (hn : l.Nodup)
    (hlt : ∀ c ∈ l, ∃ k, c = f k ∧ k.1 < N) : l.length ≤ 2 * N := by
  have hsub : l ⊆ (List.range N ×ˢ [0, 1]).map f := by
    intro c hc
    obtain ⟨k, rfl, hk⟩ := hlt c hc
    refine mem_map_of_mem (mem_product.mpr ⟨mem_range.mpr hk, ?_⟩)
    simp only [mem_cons, not_mem_nil, or_false]
    omega
  have hlen := (hn.subperm hsub).length_le
  rw [length_map, length_product, length_range] at hlen
  simp only [length_cons, length_nil] at hlen
  omega

end Fuel

structure HashStep (s s' : State) : Prop where
  frame : frame s' = frame s
  page : readPage s' = readPage s
  jmp : readJmp s' = readJmp s
  target : jmpTarget s' = jmpTarget s

structure PageStep (s s' : State) : Prop where
  frame : frame s' = frame s
  hash : readHash s' = readHash s
  jmp : readJmp s' = readJmp s
  target : jmpTarget s' = jmpTarget s

theorem PageStep.trans {s s' s'' : State} (h : PageStep s s') (h' : PageStep s' s'') : PageStep s s'' :=
  ⟨h'.frame.trans h.frame, h'.hash.trans h.hash, h'.jmp.trans h.jmp, h'.target.trans h.target⟩

theorem pageStep_writePage (s : State) (v : Option (TbId × Fin 2)) (c : PageCell) : PageStep s (writePage s v c) :=
  ⟨(views_writePage s v c).1, (views_writePage s v c).2.1, (views_writePage s v c).2.2.1, (views_writePage s v c).2.2.2⟩

theorem pageStep_bitmap (s : State) (p : Nat) : PageStep s (s.modifyPage p invalidatePageBitmap) :=
  ⟨rfl, rfl, rfl, rfl⟩

section Removal
variable (cfg : Config) {s : State} {tb : TbId}

theorem tbHashRemove_spec {on : TbId → Option Nat} {h : Nat} (L : HashLists s on) (hon : on tb = some h)
    (hlt : ∀ t, (on t).isSome → t < s.nbTbs) :
    ∃ s', tbHashRemove s h tb = .ok s' ∧ HashLists s' (update on tb none) ∧ HashStep s s' := by
  obtain ⟨a, c, hhit, -, hfind, -, hL⟩ := L.find_unlink trivial (· == tb) (walkFuel s)
    ⟨tb, by simp, hon⟩ (fun l hn hl => by
      have := length_le_of_lt hn fun t ht => hlt t (by simp [hl t ht])
      unfold walkFuel
      omega)
  obtain rfl : a = tb := by simpa using hhit
  have hfind' : findCell (readHash s) .next (· == a) (walkFuel s) (.head h) = .ok c := hfind
  refine ⟨writeHash s (readHash s (.next a)) c, ?_, ?_, ?_⟩
  · simp [tbHashRemove, hfind', walk, bind, Except.bind, pure, Except.pure]
  · unfold HashLists
    rw [readHash_writeHash]
    exact hL
  · exact ⟨(views_writeHash _ _ _).1, (views_writeHash _ _ _).2.1, (views_writeHash _ _ _).2.2.1,
      (views_writeHash _ _ _).2.2.2⟩

variable {on : TbId × Fin 2 → Option Nat}

theorem tbPageRemove_spec {p : Nat} (L : PageLists s on)
    (hon : ∃ n, on (tb, n) = some p) (hlt : ∀ k, (on k).isSome → k.1 < s.nbTbs) :
    ∃ s' n c, on (tb, n) = some p ∧ tbPageRemove s p tb = .ok s' ∧
      PageLists s' (update on (tb, n) none) ∧ PageStep s s' ∧
      readPage s c = some (tb, n) ∧ readPage s' = update (readPage s) c (readPage s (.next tb n)) := by
  obtain ⟨n₀, hn₀⟩ := hon
  obtain ⟨a, c, hhit, ha, hfind, hread, hL⟩ := L.find_unlink trivial (fun k => k.1 == tb)
    (walkFuel s) ⟨(tb, n₀), by simp, hn₀⟩ (fun l hn hl => by
      have := length_le_of_slots id hn fun k hk => ⟨k, rfl, hlt k (by simp [hl k hk])⟩
      unfold walkFuel
      omega)
  obtain ⟨t, n⟩ := a
  obtain rfl : t = tb := by simpa using hhit
  have hfind' : findCell (readPage s) pageCell (·.1 == t) (walkFuel s) (.first p) = .ok c := hfind
  refine ⟨writePage s (readPage s (.next t n)) c, n, c, ha, ?_, ?_, pageStep_writePage _ _ _, hread, ?_⟩
  · simp [tbPageRemove, hfind', walk, hread, bind, Except.bind, pure, Except.pure, pageCell]
  · unfold PageLists
    rw [readPage_writePage]
    exact hL
  · exact readPage_writePage _ _ _

theorem tbPageUnlink_spec {a : Nat} (L : PageLists s on)
    (hon : ∃ n, on (tb, n) = some (a >>> cfg.pageBits)) (hlt : ∀ k, (on k).isSome → k.1 < s.nbTbs)
    (halloc : s.l1Map (pageGroup (a >>> cfg.pageBits)) = true) :
    ∃ s' n, on (tb, n) = some (a >>> cfg.pageBits) ∧ tbPageUnlink cfg s tb (some a) none = .ok s' ∧
      PageLists s' (update on (tb, n) none) ∧ PageStep s s' ∧
      ∀ c, readPage s' c = readPage s c ∨ readPage s c = some (tb, n) := by
  obtain ⟨s₁, n, c, hn, hok, hL, hstep, hread, hs₁⟩ := tbPageRemove_spec L hon hlt
  refine ⟨s₁.modifyPage (a >>> cfg.pageBits) invalidatePageBitmap, n, hn, ?_, ?_,
    hstep.trans (pageStep_bitmap _ _), fun x => ?_⟩
  · simp [tbPageUnlink, pageFind, halloc, hok, bind, Except.bind, pure, Except.pure]
  · unfold PageLists
    rw [(views_bitmap _ _).2.2.1]
    exact hL
  · rw [(views_bitmap _ _).2.2.1, hs₁]
    by_cases hx : x = c
    · exact .inr (hx ▸ hread)
    · exact .inl (update_of_ne hx _ _)

/-- Both page links of a block go, whether they are on two pages or on one. A cell
that changes held a link to the block. -/
theorem tbPageUnlink_both (tb : TbId) (a₀ : Nat) (a₁ : Option Nat) (L : PageLists s on)
    (h₀ : on (tb, 0) = some (a₀ >>> cfg.pageBits)) (h₁ : on (tb, 1) = a₁.map (· >>> cfg.pageBits))
    (hlt : ∀ k, (on k).isSome → k.1 < s.nbTbs) (halloc₀ : s.l1Map (pageGroup (a₀ >>> cfg.pageBits)) = true)
    (halloc₁ : ∀ a, a₁ = some a → s.l1Map (pageGroup (a >>> cfg.pageBits)) = true) :
    ∃ s₁ s', tbPageUnlink cfg s tb (some a₀) none = .ok s₁ ∧ tbPageUnlink cfg s₁ tb a₁ none = .ok s' ∧
      PageLists s' (fun k => if k.1 = tb then none else on k) ∧ PageStep s s' ∧
      ∀ c, readPage s' c = readPage s c ∨ ∃ n, readPage s c = some (tb, n) := by
  obtain ⟨s₁, n, hn, hok₁, L₁, hstep₁, hread₁⟩ := tbPageUnlink_spec cfg L ⟨0, h₀⟩ hlt halloc₀
  have hfun : ∀ m, m ≠ n → update on (tb, n) none (tb, m) = on (tb, m) :=
    fun m hm => update_of_ne (by simpa using hm) _ _
  cases a₁ with
  | none =>
    -- The block has one page link, the first.
    obtain rfl : n = 0 := by
      by_contra h
      obtain rfl : n = 1 := by omega
      simp [h₁] at hn
    refine ⟨s₁, s₁, hok₁, rfl, ?_, hstep₁, fun c => (hread₁ c).imp_right fun h => ⟨0, h⟩⟩
    convert L₁ with k
    obtain ⟨t, m⟩ := k
    by_cases ht : t = tb
    · subst ht
      by_cases hm : m = 0
      · simp [hm]
      · obtain rfl : m = 1 := by omega
        simp [h₁]
    · simp [ht]
  | some a =>
    obtain ⟨m₀, hm₀⟩ : ∃ m, update on (tb, n) none (tb, m) = some (a >>> cfg.pageBits) := by
      by_cases h : n = 0
      · exact ⟨1, by rw [hfun 1 (by simp [h]), h₁]; rfl⟩
      · obtain rfl : n = 1 := by omega
        exact ⟨0, by rw [hfun 0 (by decide), h₀, ← hn, h₁]; rfl⟩
    obtain ⟨s', m, hm, hok, L', hstep, hread⟩ := tbPageUnlink_spec cfg L₁ ⟨m₀, hm₀⟩
      (fun k hk => by
        rw [nbTbs_of_frame hstep₁.frame]
        refine hlt k ?_
        by_cases he : k = (tb, n)
        · simp [he] at hk
        · rwa [update_of_ne he] at hk)
      (by rw [l1Map_of_frame hstep₁.frame]; exact halloc₁ a rfl)
    have hmn : m ≠ n := by
      rintro rfl
      simp at hm
    refine ⟨s₁, s', hok₁, hok, ?_, hstep₁.trans hstep, fun c => ?_⟩
    · convert L' with k
      obtain ⟨t, x⟩ := k
      by_cases ht : t = tb
      · subst ht
        by_cases hx : x = m
        · simp [hx]
        · obtain rfl : x = n := by omega
          simp [Function.update_apply]
      · simp [ht]
    · rcases hread c with h | h
      · rw [h]
        exact (hread₁ c).imp_right fun h => ⟨n, h⟩
      · rcases hread₁ c with h' | h'
        · exact .inr ⟨m, h' ▸ h⟩
        · exact .inr ⟨n, h'⟩

end Removal

end GemDroid.Tb
