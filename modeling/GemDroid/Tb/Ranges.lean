import GemDroid.Tb.Generate

/-! Invalidating the blocks of a physical address range.

The walk over a page list saves the next link before it invalidates a block. The
saved link may be the other link of the same block, which by then is off the list;
its own next link still leads on. So the walk follows a trail of nodes that need
not be valid any more, and what it needs is that it never hits such a node: a
block with both parts on the page must not have both parts in the range. -/
namespace GemDroid.Tb
open Lib.LinkPath List Bool Option Nat
attribute [local instance] neZero_two

variable {p start stop : Nat} {s : State} {n : Fin 2} {cfg : Config} {i : Info} {tb : TbId}

/-- Both links of a block are on one page list, and the range test holds for both. -/
def HitsTwice (cfg : Config) (i : Info) (start stop : Nat) : Prop :=
  i.pageAddr1 = some i.pageAddr0 ∧ tbIntersects cfg i 0 start stop = true ∧ tbIntersects cfg i 1 start stop = true

/-- The later state has fewer valid blocks, and they are as they were. -/
structure Shrinks (s s' : State) : Prop where
  info : info s' = info s
  nbTbs : s'.nbTbs = s.nbTbs
  valid : ∀ t, s'.valid t = true → s.valid t = true

open Shrinks

theorem Shrinks.refl (s : State) : Shrinks s s := ⟨rfl, rfl, fun _ h => h⟩

theorem Shrinks.trans {s' s'' : State} (h : Shrinks s s') (h' : Shrinks s' s'') : Shrinks s s'' :=
  ⟨h'.info.trans h.info, h'.nbTbs.trans h.nbTbs, fun t ht => h.valid t (h'.valid t ht)⟩

section Walk

theorem Info.Wf.same_page (hwf : i.Wf cfg) (h₀ : pageIndex cfg i 0 = some p)
    (h₁ : pageIndex cfg i 1 = some p) : i.pageAddr1 = some i.pageAddr0 := by
  obtain ⟨a, ha, hap⟩ := map_eq_some_iff.mp h₁
  have hp : i.pageAddr0 >>> cfg.pageBits = p := some.inj h₀
  have ha0 := Nat.div_mul_cancel (hwf.aligned 0 i.pageAddr0 rfl)
  have ha1 := Nat.div_mul_cancel (hwf.aligned 1 a ha)
  rw [Nat.shiftRight_eq_div_pow] at hap hp
  have hsame : a = i.pageAddr0 := by
    rw [← ha0, ← ha1]
    unfold Config.pageSize
    rw [hap, hp]
  rw [← hsame]
  exact ha

/-- The cells of the trail behind a node survive the invalidation of its block. -/
theorem trail_after_invalidate {s₁ : State} {l : List (TbId × Fin 2)} (I : Inv cfg s) (htb : s.valid tb = true)
    (htrail : Trail (readPage s) pageCell (some (tb, n)) ((tb, n) :: l) none)
    (hpage : ∀ x ∈ (tb, n) :: l, pageIndex cfg (info s x.1) x.2 = some p)
    (hread : ∀ c, readPage s₁ c = readPage s c ∨ ∃ m, readPage s c = some (tb, m)) :
    Trail (readPage s₁) pageCell (readPage s (.next tb n)) l none := by
  refine (trail_congr fun a ha => ?_).mpr htrail.2
  rcases hread (pageCell a) with h | ⟨m, hm⟩
  · exact h
  -- The node before the other link of the block: the two links are neighbours.
  exfalso
  have hnodup := nodup_cons.mp (trail_nodup htrail fun _ _ => by simp)
  obtain ⟨l₁, l₂, rfl⟩ := trail_next htrail.2 ha hm (by simp)
  have hmem : (tb, m) ∈ l₁ ++ a :: (tb, m) :: l₂ := by simp
  have hne : m ≠ n := by
    rintro rfl
    exact hnodup.1 hmem
  have hmp : pageIndex cfg (info s tb) m = some p := hpage (tb, m) (mem_cons_of_mem _ hmem)
  have hnp : pageIndex cfg (info s tb) n = some p := hpage (tb, n) (mem_cons_self ..)
  have hboth : pageIndex cfg (info s tb) 0 = some p ∧ pageIndex cfg (info s tb) 1 = some p := by
    by_cases hm0 : m = 0
    · obtain rfl : n = 1 := by omega
      exact ⟨hm0 ▸ hmp, hnp⟩
    · obtain rfl : m = 1 := by omega
      obtain rfl : n = 0 := by omega
      exact ⟨hnp, hmp⟩
  have hadj := I.adjacent tb htb ((I.wf.info tb htb).same_page hboth.1 hboth.2)
  by_cases hm0 : m = 0
  · obtain rfl : n = 1 := by omega
    subst hm0
    have hhead : readPage s (pageCell (tb, 1)) = some (tb, 0) := hadj
    have h := htrail.2
    rw [hhead] at h
    cases l₁ with
    | nil =>
      obtain rfl : (tb, 0) = a := some.inj h.1
      simp at hnodup
    | cons y l₁ =>
      obtain rfl : (tb, 0) = y := some.inj h.1
      simp at hnodup
  · obtain rfl : m = 1 := by omega
    obtain rfl : n = 0 := by omega
    obtain ⟨l₃, l₄, hsplit⟩ := trail_next htrail.2 hmem (show readPage s (pageCell (tb, 1)) = some (tb, 0) from hadj)
      (by simp)
    exact hnodup.1 (by rw [hsplit]; simp)

/-- A block that is hit on one of its links and not twice is not hit on another one. -/
theorem misses_other_link {m : Fin 2} (I : Inv cfg s) (htb : s.valid tb = true)
    (hpm : pageIndex cfg (info s tb) m = some p) (hpn : pageIndex cfg (info s tb) n = some p) (hne : m ≠ n)
    (hsep : pageIndex cfg (info s tb) 0 = some p → ¬ HitsTwice cfg (info s tb) start stop)
    (hhit : tbIntersects cfg (info s tb) n start stop = true) :
    tbIntersects cfg (info s tb) m start stop = false := by
  by_contra hi
  rw [not_eq_false] at hi
  by_cases hm : m = 0
  · obtain rfl : n = 1 := by omega
    subst hm
    exact hsep hpm ⟨(I.wf.info tb htb).same_page hpm hpn, hi, hhit⟩
  · obtain rfl : m = 1 := by omega
    obtain rfl : n = 0 := by omega
    exact hsep hpn ⟨(I.wf.info tb htb).same_page hpn hpm, hhit, hi⟩

/-- The page walk from the link `k` on finishes and leaves no valid block whose part
on the page is in the range. -/
theorem tbInvalidateFrom_spec (p start stop : Nat) (l : List (TbId × Fin 2)) (s : State) (k : Option (TbId × Fin 2))
    (fuel : Nat) (I : Inv cfg s) (htrail : Trail (readPage s) pageCell k l none)
    (hpage : ∀ x ∈ l, pageIndex cfg (info s x.1) x.2 = some p)
    (hvalid : ∀ x ∈ l, tbIntersects cfg (info s x.1) x.2 start stop = true → s.valid x.1 = true)
    (hcover : ∀ t n, s.valid t = true → pageIndex cfg (info s t) n = some p →
      tbIntersects cfg (info s t) n start stop = true → (t, n) ∈ l)
    (hsep : ∀ t, s.valid t = true → pageIndex cfg (info s t) 0 = some p → ¬ HitsTwice cfg (info s t) start stop)
    (hfuel : l.length < fuel) : ∃ s', tbInvalidateFrom cfg start stop fuel s k = .ok s' ∧ Inv cfg s' ∧ Shrinks s s' ∧
      ∀ t n, s'.valid t = true → pageIndex cfg (info s t) n = some p →
        tbIntersects cfg (info s t) n start stop = false := by
  induction l generalizing s k fuel with
  | nil =>
    obtain ⟨fuel, rfl⟩ := exists_eq_add_one.2 hfuel
    obtain rfl : k = none := htrail
    refine ⟨s, rfl, I, refl s, fun t n ht hp => ?_⟩
    by_contra h
    exact absurd (hcover t n ht hp (by simpa using h)) not_mem_nil
  | cons x l ih =>
    obtain ⟨fuel, rfl⟩ := exists_eq_add_one.2 (zero_lt_of_lt hfuel)
    obtain ⟨tb, n⟩ := x
    obtain rfl : k = some (tb, n) := htrail.1
    have hnodup := nodup_cons.mp (trail_nodup htrail fun _ _ => by simp)
    cases hhit : tbIntersects cfg (info s tb) n start stop with
    | false =>
      obtain ⟨s', hok, I', hshrinks, hdone⟩ := ih s (readPage s (.next tb n)) fuel I htrail.2
        (forall_mem_cons.mp hpage).2 (forall_mem_cons.mp hvalid).2
        (fun t m ht hp hi => (mem_cons.mp (hcover t m ht hp hi)).resolve_left fun he => by
          obtain ⟨rfl, rfl⟩ := Prod.mk.inj he
          simp [hhit] at hi) hsep (by simpa using hfuel)
      refine ⟨s', ?_, I', hshrinks, hdone⟩
      rw [← hok]
      simp [tbInvalidateFrom, show tbIntersects cfg (s.tbs tb).toInfo n start stop = false from hhit, readPage,
        bind, Except.bind, pure, Except.pure]
    | true =>
      have htb := hvalid (tb, n) (mem_cons_self ..) hhit
      obtain ⟨s₁, hok₁, I₁, hframe₁, hread₁⟩ := tbPhysInvalidate_spec I htb
      have hinfo₁ : info s₁ = info s := info_of_frame hframe₁
      have hvalid₁ := fun t (ht : s₁.valid t = true) => valid_of_invalidated hframe₁ ht
      have hshrinks₁ : Shrinks s s₁ := ⟨hinfo₁, nbTbs_of_frame hframe₁, fun t ht => (hvalid₁ t ht).2⟩
      have hmiss : ∀ m, (tb, m) ∈ l → tbIntersects cfg (info s tb) m start stop = false := by
        intro m hm
        refine misses_other_link I htb (hpage (tb, m) (mem_cons_of_mem _ hm))
          (hpage (tb, n) (mem_cons_self ..)) ?_ (hsep tb htb) hhit
        rintro rfl
        exact hnodup.1 hm
      obtain ⟨s', hok, I', hshrinks, hdone⟩ := ih s₁ (readPage s (.next tb n)) fuel I₁
        (trail_after_invalidate I htb htrail hpage hread₁)
        (fun x hx => by rw [hinfo₁]; exact hpage x (mem_cons_of_mem _ hx))
        (fun x hx hi => by
          rw [hinfo₁] at hi
          rw [valid_of_frame hframe₁]
          refine (Function.update_of_ne ?_ _ _).trans (hvalid x (mem_cons_of_mem _ hx) hi)
          intro he
          obtain ⟨t, m⟩ := x
          obtain rfl : t = tb := he
          simp [hmiss m hx] at hi)
        (fun t m ht hp hi => by
          rw [hinfo₁] at hp hi
          refine (mem_cons.mp (hcover t m (hvalid₁ t ht).2 hp hi)).resolve_left fun he => ?_
          exact (hvalid₁ t ht).1 (Prod.mk.inj he).1)
        (fun t ht hp => by
          rw [hinfo₁] at hp ⊢
          exact hsep t (hvalid₁ t ht).2 hp)
        (by simpa using hfuel)
      refine ⟨s', ?_, I', hshrinks₁.trans hshrinks, fun t m ht hp => ?_⟩
      · rw [← hok]
        simp [tbInvalidateFrom, show tbIntersects cfg (s.tbs tb).toInfo n start stop = true from hhit, readPage,
          hok₁, bind, Except.bind]
      · rw [← hinfo₁] at hp ⊢
        exact hdone t m ht hp

end Walk

section Page

/-- A page descriptor whose list stays is invisible to the invariant. -/
theorem Inv.modifyPage (I : Inv cfg s) (p : Nat) (f : PageDesc → PageDesc)
    (hf : (f (s.pages p)).firstTb = (s.pages p).firstTb) : Inv cfg (s.modifyPage p f) := by
  obtain ⟨-, hhash, hpage, hjmp, -⟩ := views_modifyPage s p f hf
  exact I.congr I.wf rfl (fun _ _ => rfl) hhash hpage hjmp fun _ _ => rfl

theorem buildPageBitmapFrom_ok (cfg : Config) (s : State) (l : List (TbId × Fin 2)) (k : Option (TbId × Fin 2)) (fuel : Nat)
    (tab : Nat → BitVec 8) (htrail : Trail (readPage s) pageCell k l none) (hfuel : l.length < fuel) :
    ∃ tab', buildPageBitmapFrom cfg s fuel k tab = .ok tab' := by
  induction l generalizing k fuel tab with
  | nil =>
    obtain ⟨fuel, rfl⟩ := exists_eq_add_one.2 hfuel
    obtain rfl : k = none := htrail
    exact ⟨tab, rfl⟩
  | cons x l ih =>
    obtain ⟨fuel, rfl⟩ := exists_eq_add_one.2 (zero_lt_of_lt hfuel)
    obtain rfl : k = some x := htrail.1
    exact ih _ fuel _ htrail.2 (by simpa using hfuel)

/-- The list of a page, and that a walk over it has the fuel. -/
theorem Inv.page_list (I : Inv cfg s) (p : Nat) :
    ∃ l, Path (readPage s) pageCell (.first p) l none ∧ (∀ k, k ∈ l ↔ pageOn cfg (frame s) k = some p) ∧
      l.length < walkFuel s := by
  obtain ⟨l, hp, hl⟩ := I.page.path p trivial
  have hlen := length_le_of_slots (N := s.nbTbs) id (I.page.nodup hp hl)
    fun k hk => ⟨k, rfl, pageOn_lt I.wf (by simp [(hl k).mp hk])⟩
  refine ⟨l, hp, hl, ?_⟩
  unfold walkFuel
  omega

theorem countCodeWrite_spec (I : Inv cfg s) (p : Nat) (w : Bool) :
    ∃ s', countCodeWrite cfg s p w = .ok s' ∧ Inv cfg s' ∧ frame s' = frame s ∧ s'.valid = s.valid := by
  unfold countCodeWrite
  split
  · have I₁ := I.modifyPage p (fun d => { d with codeWriteCount := d.codeWriteCount + 1 }) rfl
    simp only
    split
    · obtain ⟨l, hp, -, hfuel⟩ := I₁.page_list p
      obtain ⟨tab, htab⟩ := buildPageBitmapFrom_ok cfg _ l _ _ (fun _ => 0) (trail_iff_path.mpr hp) hfuel
      have I₂ := I₁.modifyPage p (fun d => { d with codeBitmap := some tab }) rfl
      refine ⟨_, ?_, I₂, rfl, rfl⟩
      unfold buildPageBitmap
      rw [show ((s.modifyPage p fun d => { d with codeWriteCount := d.codeWriteCount + 1 }).pages p).firstTb =
        readPage (s.modifyPage p fun d => { d with codeWriteCount := d.codeWriteCount + 1 }) (.first p) from rfl, htab]
      rfl
    · exact ⟨_, rfl, I₁, rfl, rfl⟩
  · exact ⟨s, rfl, I, rfl, rfl⟩

theorem pageOn_eq_some {t : TbId} :
    pageOn cfg (frame s) (t, n) = some p ↔ s.valid t = true ∧ pageIndex cfg (info s t) n = some p :=
  ite_none_right_eq_some

/-- One call of `tb_invalidate_phys_page_range` finishes and leaves no valid block
whose part on the page of `start` is in the range. -/
theorem tbInvalidatePhysPageRange_spec (I : Inv cfg s) (start stop : Nat) (w : Bool)
    (hsep : ∀ t, s.valid t = true → pageIndex cfg (info s t) 0 = some (start >>> cfg.pageBits) →
      ¬ HitsTwice cfg (info s t) start stop) :
    ∃ s', tbInvalidatePhysPageRange cfg s start stop w = .ok s' ∧ Inv cfg s' ∧ Shrinks s s' ∧
      ∀ t n, s'.valid t = true → pageIndex cfg (info s t) n = some (start >>> cfg.pageBits) →
        tbIntersects cfg (info s t) n start stop = false := by
  unfold tbInvalidatePhysPageRange
  cases hp : s.l1Map (pageGroup (start >>> cfg.pageBits)) with
  | false =>
    refine ⟨s, by simp [pageFind, hp, pure, Except.pure], I, refl s, fun t n ht hidx => ?_⟩
    -- A valid block has the descriptors of its pages.
    obtain ⟨a, ha, hap⟩ := map_eq_some_iff.mp hidx
    have halloc := I.wf.alloc t n a ht ha
    rw [hap, show (frame s).l1Map = s.l1Map from rfl, hp] at halloc
    cases halloc
  | true =>
    obtain ⟨s₁, hok₁, I₁, hframe₁, hvalid₁⟩ := countCodeWrite_spec I (start >>> cfg.pageBits) w
    have hinfo₁ : info s₁ = info s := info_of_frame hframe₁
    obtain ⟨l, hpath, hl, hfuel⟩ := I₁.page_list (start >>> cfg.pageBits)
    have hl' : ∀ t n, (t, n) ∈ l ↔ s.valid t = true ∧ pageIndex cfg (info s t) n = some (start >>> cfg.pageBits) := by
      intro t n
      rw [hl, pageOn_eq_some, hvalid₁, hinfo₁]
    obtain ⟨s₂, hok₂, I₂, hshrinks, hdone⟩ := tbInvalidateFrom_spec (start >>> cfg.pageBits) start stop l s₁ _
      (walkFuel s₁) I₁ (trail_iff_path.mpr hpath)
      (fun x hx => by rw [hinfo₁]; exact ((hl' x.1 x.2).mp hx).2)
      (fun x hx _ => by rw [hvalid₁]; exact ((hl' x.1 x.2).mp hx).1)
      (fun t n ht hidx _ => by
        rw [hvalid₁] at ht
        rw [hinfo₁] at hidx
        exact (hl' t n).mpr ⟨ht, hidx⟩)
      (fun t ht hidx => by
        rw [hvalid₁] at ht
        rw [hinfo₁] at hidx ⊢
        exact hsep t ht hidx) hfuel
    have hshrinks' : Shrinks s s₂ :=
      Shrinks.trans ⟨hinfo₁, nbTbs_of_frame hframe₁, fun t ht => hvalid₁ ▸ ht⟩ hshrinks
    rw [hinfo₁] at hdone
    have hok₂' : tbInvalidateFrom cfg start stop (walkFuel s₁) s₁ (s₁.pages (start >>> cfg.pageBits)).firstTb = .ok s₂ :=
      hok₂
    have hfind : pageFind s (start >>> cfg.pageBits) = some (s.pages (start >>> cfg.pageBits)) := if_pos hp
    simp only [hfind, bind, Except.bind, hok₁, hok₂']
    split
    · exact ⟨_, rfl, I₂.modifyPage _ _ rfl, ⟨hshrinks'.info, hshrinks'.nbTbs, hshrinks'.valid⟩, hdone⟩
    · exact ⟨_, rfl, I₂, hshrinks', hdone⟩

end Page

section Range

/-- The physical addresses of the guest code of part `n` of a block: up to the end of
the first page, and what is left over from the start of the second page. -/
def Info.Bytes (cfg : Config) (i : Info) (n : Fin 2) (x : Nat) : Prop :=
  if n = 0 then
    i.pageAddr0 + i.pc % cfg.pageSize ≤ x ∧ x < i.pageAddr0 + min (i.pc % cfg.pageSize + i.size) cfg.pageSize
  else ∃ a, i.pageAddr1 = some a ∧ a ≤ x ∧ x < a + (i.pc % cfg.pageSize + i.size - cfg.pageSize)

variable {x : Nat}

theorem Info.Wf.second_end (hwf : i.Wf cfg) (h : i.pageAddr1.isSome) :
    (i.pc + i.size) % cfg.pageSize = i.pc % cfg.pageSize + i.size - cfg.pageSize := by
  have hspan := hwf.spans.mp h
  have hlt := hwf.size_lt
  rw [add_mod, ← add_mod, ← mod_add_mod, mod_eq_sub_mod (le_of_lt hspan), mod_eq_of_lt (by omega)]

theorem page_eq (cfg : Config) {a : Nat} (hle : a / cfg.pageSize * cfg.pageSize ≤ x)
    (hlt : x < a / cfg.pageSize * cfg.pageSize + cfg.pageSize) : x >>> cfg.pageBits = a >>> cfg.pageBits := by
  rw [shiftRight_eq_div_pow, shiftRight_eq_div_pow]
  exact Nat.div_eq_of_lt_le hle (by rwa [Nat.succ_mul])

theorem Info.Wf.bytes_page (hwf : i.Wf cfg) (hx : i.Bytes cfg n x) : pageIndex cfg i n = some (x >>> cfg.pageBits) := by
  have hdiv : ∀ a, cfg.pageSize ∣ a → a ≤ x → x < a + cfg.pageSize → a >>> cfg.pageBits = x >>> cfg.pageBits := by
    intro a ha hle hlt
    rw [← Nat.div_mul_cancel ha] at hle hlt
    exact (page_eq cfg hle hlt).symm
  unfold Info.Bytes at hx
  by_cases hn : n = 0
  · rw [if_pos hn] at hx
    have ha : i.pageAddr n = some i.pageAddr0 := if_pos hn
    rw [pageIndex, ha, map_some, hdiv _ (hwf.aligned n _ ha) (by omega) (by omega)]
  rw [if_neg hn] at hx
  obtain ⟨a, ha, hle, hlt⟩ := hx
  have ha' : i.pageAddr n = some a := (if_neg hn).trans ha
  have hsize := hwf.size_lt
  rw [pageIndex, ha', map_some, hdiv _ (hwf.aligned n _ ha') hle (by omega)]

theorem Info.Wf.bytes_intersects (hwf : i.Wf cfg) (hx : i.Bytes cfg n x)
    (hstart : start ≤ x) (hstop : x < stop) : tbIntersects cfg i n start stop = true := by
  unfold Info.Bytes at hx
  unfold tbIntersects
  by_cases hn : n = 0
  · rw [if_pos hn] at hx
    simp only [hn, if_true, not_eq_true', or_eq_false_iff, decide_eq_false_iff_not]
    omega
  rw [if_neg hn] at hx
  obtain ⟨a, ha, hle, hlt⟩ := hx
  simp only [hn, if_false, ha, getD_some, not_eq_true', or_eq_false_iff, decide_eq_false_iff_not]
  rw [hwf.second_end (by simp [ha])]
  omega

theorem tbIntersects_mono {start' : Nat} (h : start ≤ start')
    (hi : tbIntersects cfg i n start' stop = true) : tbIntersects cfg i n start stop = true := by
  simp only [tbIntersects, not_eq_true', or_eq_false_iff, decide_eq_false_iff_not] at hi ⊢
  omega

theorem tbInvalidatePages_spec (stop : Nat) (w : Bool) (k : Nat) (s : State) (start : Nat) (I : Inv cfg s)
    (hsep : ∀ t, s.valid t = true → ¬ HitsTwice cfg (info s t) start stop) (hk : stop ≤ start + k) :
    ∃ s', tbInvalidatePages cfg stop w k s start = .ok s' ∧ Inv cfg s' ∧ Shrinks s s' ∧
      ∀ t n x, s'.valid t = true → start ≤ x → x < stop → ¬ (info s t).Bytes cfg n x := by
  induction k generalizing s start with
  | zero =>
    refine ⟨s, ?_, I, refl s, fun t n x _ h h' => absurd h' (by omega)⟩
    simp [tbInvalidatePages, show ¬ start < stop by omega, pure, Except.pure]
  | succ k ih =>
    unfold tbInvalidatePages
    by_cases hlt : start < stop
    · obtain ⟨s₁, hok₁, I₁, hshrinks₁, hdone₁⟩ := tbInvalidatePhysPageRange_spec I start stop w
        fun t ht _ => hsep t ht
      have hpos := cfg.pageSize_pos
      have hnext : start < start / cfg.pageSize * cfg.pageSize + cfg.pageSize := by
        have := lt_div_mul_add (a := start) hpos
        omega
      obtain ⟨s', hok, I', hshrinks, hdone⟩ := ih s₁ _ I₁
        (fun t ht htwice => by
          rw [hshrinks₁.info] at htwice
          exact hsep t (hshrinks₁.valid t ht) ⟨htwice.1, tbIntersects_mono (le_of_lt hnext) htwice.2.1,
            tbIntersects_mono (le_of_lt hnext) htwice.2.2⟩)
        (by omega)
      refine ⟨s', ?_, I', hshrinks₁.trans hshrinks, fun t n x ht hx hx' hb => ?_⟩
      · simp [hlt, hok₁, hok, bind, Except.bind]
      · by_cases hpage : x < start / cfg.pageSize * cfg.pageSize + cfg.pageSize
        · -- The byte is on the page just done.
          have hwf := I.wf.info t ((hshrinks₁.trans hshrinks).valid t ht)
          have hidx := hwf.bytes_page hb
          have hsame := page_eq cfg (le_trans (div_mul_le_self _ _) hx) hpage
          have hmiss := hdone₁ t n (hshrinks.valid t ht) (hidx.trans (by rw [hsame]))
          have hhit := hwf.bytes_intersects hb hx hx'
          rw [show info s t = (frame s).info t from rfl] at hmiss
          rw [hmiss] at hhit
          cases hhit
        · rw [← hshrinks₁.info] at hb
          exact hdone t n x ht (by omega) hx' hb
    · refine ⟨s, by simp [hlt, pure, Except.pure], I, refl s, fun t n x _ h h' => absurd h' (by omega)⟩

/-- `tb_invalidate_phys_range` finishes and leaves no valid block with a byte in the range. -/
theorem tbInvalidatePhysRange_spec (I : Inv cfg s) (start stop : Nat) (w : Bool)
    (hsep : ∀ t, s.valid t = true → ¬ HitsTwice cfg (info s t) start stop) :
    ∃ s', tbInvalidatePhysRange cfg s start stop w = .ok s' ∧ Inv cfg s' ∧ Shrinks s s' ∧
      ∀ t n x, s'.valid t = true → start ≤ x → x < stop → ¬ (info s t).Bytes cfg n x :=
  tbInvalidatePages_spec stop w stop s start I hsep (le_add_left _ _)

end Range

end GemDroid.Tb
