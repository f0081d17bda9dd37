import GemDroid.Tb.Lists

/-! The jump rings.

The ring of a block `T` starts at `jmp_first` of `T`, runs through the
`jmp_next` fields of the slots chained to `T` and ends with the link back to
`jmp_first` of `T`. `Rings s on` says that every valid block has such a ring, that
the slots on it are the slots of valid blocks whose native jump goes to `T`, and
that a slot on no ring jumps to its own exit stub. Chaining a slot and
invalidating a block keep it. -/
namespace GemDroid.Tb
open List Option JmpLink
open Function (update_of_ne update_apply update)
open Lib.LinkPath

variable {on : JmpLink → Option TbId} {t : TbId}

def jmpShape : Shape JmpLink JmpLink TbId where
  cell := id
  head := .first
  stop t := some (.first t)
  cell_inj _ _ h := h
  head_inj _ _ h := JmpLink.first.inj h

def JmpLists (s : State) (D : TbId → Prop) (on : JmpLink → Option TbId) : Prop :=
  Lists jmpShape (readJmp s) D on

/-- A step that writes only jump links and native jumps. -/
structure JmpStep (s s' : State) : Prop where
  frame : frame s' = frame s
  hash : readHash s' = readHash s
  page : readPage s' = readPage s

variable (s : State)

theorem JmpStep.refl : JmpStep s s := ⟨rfl, rfl, rfl⟩

theorem JmpStep.trans {s s' s'' : State} (h : JmpStep s s') (h' : JmpStep s' s'') : JmpStep s s'' :=
  ⟨h'.frame.trans h.frame, h'.hash.trans h.hash, h'.page.trans h.page⟩

theorem jmpStep_writeJmp (v : Option JmpLink) (c : JmpLink) : JmpStep s (writeJmp s v c) :=
  ⟨(views_writeJmp s v c).1, (views_writeJmp s v c).2.1, (views_writeJmp s v c).2.2.1⟩

theorem jmpStep_tbSetJmpTarget (t : TbId) (n : Fin 2) (a : Nat) : JmpStep s (tbSetJmpTarget s t n a) :=
  ⟨(views_tbSetJmpTarget s t n a).1, (views_tbSetJmpTarget s t n a).2.1, (views_tbSetJmpTarget s t n a).2.2.1⟩

def stub (i : Info) (n : Fin 2) : Nat := i.tcPtr + (i.tbNextOffset n).getD 0xffff

theorem tbResetJump_eq (t : TbId) (n : Fin 2) : tbResetJump s t n = tbSetJmpTarget s t n (stub (info s t) n) := rfl

variable {T : TbId}

section Walks
variable {s : State} {D : TbId → Prop}

section
variable (L : JmpLists s D on)
include L

/-- Only slots are on rings. -/
theorem JmpLists.first_off (t : TbId) : on (.first t) = none := by
  by_contra h
  exact L.apart (.first t) t (isSome_iff_ne_none.mpr h) rfl

theorem JmpLists.exists_slot {c : JmpLink} (hc : on c = some T) : ∃ t n, c = .next t n := by
  cases c with
  | first t => simp [L.first_off t] at hc
  | next t n => exact ⟨t, n, rfl⟩

theorem JmpLists.fuel (hlt : ∀ t n, (on (.next t n)).isSome → t < s.nbTbs)
    {l : List JmpLink} (hn : l.Nodup) (hl : ∀ c ∈ l, on c = some T) : l.length < walkFuel s := by
  have := length_le_of_slots (fun k => .next k.1 k.2) hn fun c hc => by
    obtain ⟨t, n, rfl⟩ := L.exists_slot (hl c hc)
    exact ⟨(t, n), rfl, hlt t n (by simp [hl _ hc])⟩
  unfold walkFuel
  omega

theorem tbJmpRemove_spec (tb : TbId) (n : Fin 2) (hfree : on (.next tb n) = none → readJmp s (.next tb n) = none)
    (hD : ∀ T, on (.next tb n) = some T → D T) (hlt : ∀ t n, (on (.next t n)).isSome → t < s.nbTbs) :
    ∃ s', tbJmpRemove s tb n = .ok s' ∧ JmpLists s' D (update on (.next tb n) none) ∧ JmpStep s s' ∧
      jmpTarget s' = jmpTarget s ∧ readJmp s' (.next tb n) = none ∧
      ∀ x, readJmp s x = none → readJmp s' x = none := by
  cases hT : on (.next tb n) with
  | none =>
    refine ⟨s, ?_, ?_, JmpStep.refl s, rfl, hfree hT, fun _ h => h⟩
    · simp [tbJmpRemove, hfree hT, pure, Except.pure]
    · rwa [← hT, Function.update_eq_self]
  | some T =>
    obtain ⟨c, hfind, hne, hL⟩ := L.ring_unlink (hD T hT) hT rfl rfl (walkFuel s)
      fun l hn hl => JmpLists.fuel L hlt hn hl
    obtain ⟨k, hk⟩ := isSome_iff_exists.mp (L.link_isSome (hD T hT) hT rfl)
    have hk' : readJmp s (.next tb n) = some k := hk
    have hfind' : findCell (readJmp s) id (· == .next tb n) (walkFuel s) (.next tb n) = .ok c := hfind
    have hstep := jmpStep_writeJmp s (readJmp s (.next tb n)) c
    refine ⟨writeJmp (writeJmp s (readJmp s (.next tb n)) c) none (.next tb n), ?_, ?_,
      hstep.trans (jmpStep_writeJmp _ _ _), ?_, ?_, fun x hx => ?_⟩
    · simp [tbJmpRemove, hfind', hk', walk, bind, Except.bind, pure, Except.pure]
    · unfold JmpLists
      rw [readJmp_writeJmp, readJmp_writeJmp]
      exact hL.update_cell_off (by simp) (fun h _ => L.apart_of_on hT h) none
    · simp
    · simp
    · -- A cell that changes held the link to the slot.
      rw [readJmp_writeJmp, readJmp_writeJmp, update_apply]
      split
      · rfl
      rw [update_of_ne, hx]
      rintro rfl
      have hfound : readJmp s x = some (.next tb n) := by
        have := findCell_hit hfind'
        obtain ⟨a, ha, hhit⟩ := this
        rw [ha, beq_iff_eq.mp hhit]
      simp [hx] at hfound

end

/-- Every slot from the link `k` to the end of the ring is unchained and jumps to its stub. -/
theorem tbJmpUnchain_spec (l : List JmpLink) (s : State) (fuel : Nat) (k : Option JmpLink)
    (htrail : Trail (readJmp s) id k l (some (.first T))) (hslot : ∀ c ∈ l, ∃ t n, c = .next t n)
    (hnodup : l.Nodup) (hfuel : l.length < fuel) :
    ∃ s', tbJmpUnchain fuel s k = .ok s' ∧ JmpStep s s' ∧ (∀ c, readJmp s' c = if c ∈ l then none else readJmp s c) ∧
      ∀ t n, jmpTarget s' t n = if next t n ∈ l then stub (info s t) n else jmpTarget s t n := by
  induction l generalizing s fuel k with
  | nil =>
    obtain ⟨fuel, rfl⟩ := Nat.exists_eq_add_one.2 hfuel
    obtain rfl : k = some (.first T) := htrail
    exact ⟨s, rfl, JmpStep.refl s, by simp, by simp⟩
  | cons c l ih =>
    obtain ⟨fuel, rfl⟩ := Nat.exists_eq_add_one.2 (Nat.zero_lt_of_lt hfuel)
    obtain ⟨t, n, rfl⟩ := hslot c (mem_cons_self ..)
    obtain ⟨rfl, htail⟩ := htrail
    obtain ⟨hnot, hnodup⟩ := nodup_cons.mp hnodup
    let s₁ := writeJmp (tbResetJump s t n) none (.next t n)
    have hread : readJmp s₁ = update (readJmp s) (.next t n) none := by
      simp [s₁, tbResetJump_eq]
    have hstep : JmpStep s s₁ := (jmpStep_tbSetJmpTarget s t n _).trans (jmpStep_writeJmp _ _ _)
    have htarget : ∀ x m, jmpTarget s₁ x m = if x = t ∧ m = n then stub (info s t) n else jmpTarget s x m := by
      intro x m
      rw [show jmpTarget s₁ = jmpTarget (tbResetJump s t n) from (views_writeJmp _ _ _).2.2.2, tbResetJump_eq,
        jmpTarget_tbSetJmpTarget]
    have hinfo : info s₁ = info s := info_of_frame hstep.frame
    obtain ⟨s', hok, hstep', hread', htarget'⟩ := ih s₁ fuel (readJmp s (.next t n))
      ((trail_congr fun c hc => by
        rw [hread]
        exact update_of_ne (fun he : c = .next t n => hnot (he ▸ hc)) _ _).mpr htail)
      (forall_mem_cons.mp hslot).2 hnodup (by simpa using hfuel)
    refine ⟨s', hok, hstep.trans hstep', fun c => ?_, fun x m => ?_⟩
    · rw [hread' c, hread]
      by_cases hc : c = .next t n
      · simp [hc]
      · simp [hc]
    · rw [htarget' x m, htarget x m, hinfo]
      by_cases hx : x = t ∧ m = n
      · simp [hx]
      · have hne : ¬ (next x m = .next t n) := fun he => hx ⟨(next.inj he).1, (next.inj he).2⟩
        simp [hx, hne]

end Walks

/-- Every valid block has its ring. A slot on the ring of `T` belongs to a valid
block and its native jump goes to `T`; a slot on no ring has a null link and its
native jump, if it has one, goes to its stub. -/
structure Rings (s : State) (on : JmpLink → Option TbId) : Prop where
  lists : JmpLists s (s.valid · = true) on
  slot : ∀ t n T, on (.next t n) = some T → s.valid t = true ∧ s.valid T = true ∧
    ((info s t).tbNextOffset n).isSome ∧ jmpTarget s t n = (info s T).tcPtr
  free : ∀ t n, s.valid t = true → on (.next t n) = none → readJmp s (.next t n) = none ∧
    (((info s t).tbNextOffset n).isSome → jmpTarget s t n = stub (info s t) n)

section Rings
variable {s s' : State} {tb : TbId}

theorem Rings.off_iff (R : Rings s on) (ht : s.valid t = true) (n : Fin 2) :
    on (.next t n) = none ↔ readJmp s (.next t n) = none := by
  refine ⟨fun h => (R.free t n ht h).1, fun h => ?_⟩
  by_contra hon
  obtain ⟨T, hT⟩ := ne_none_iff_exists'.mp hon
  have hlink := R.lists.link_isSome (R.slot t n T hT).2.1 hT rfl
  rw [show readJmp s (jmpShape.cell (.next t n)) = none from h] at hlink
  cases hlink

theorem update_valid_false {valid : TbId → Bool} (h : update valid tb false t = true) : t ≠ tb ∧ valid t = true := by
  rw [update_apply] at h
  split at h
  · cases h
  · next hne => exact ⟨hne, h⟩

section
variable (R : Rings s on)
include R

/-- The rings once the slots on the ring of `tb` are free: `on₂` has no slot of `tb` itself,
and `s'` no longer has the block. -/
theorem rings_drop {s₂ : State} {on₂ : JmpLink → Option TbId}
    (L₂ : JmpLists s₂ (s.valid · = true) on₂) (hself : ∀ n, on₂ (.next tb n) = none)
    (hother : ∀ t n, t ≠ tb → on₂ (.next t n) = on (.next t n))
    (hnull : ∀ c, readJmp s c = none → readJmp s₂ c = none)
    (hinfo : info s' = info s) (hvalid : s'.valid = update s.valid tb false)
    (hread : ∀ c, c ≠ .first tb → readJmp s' c = if on₂ c = some tb then none else readJmp s₂ c)
    (htarget : ∀ t n, jmpTarget s' t n = if on₂ (.next t n) = some tb then stub (info s t) n else jmpTarget s t n) :
    Rings s' fun c => if on₂ c = some tb then none else on₂ c := by
  have hvalid' : ∀ t, s'.valid t = true → t ≠ tb ∧ s.valid t = true := by
    intro t ht
    rw [hvalid] at ht
    exact update_valid_false ht
  refine ⟨?_, fun t n T hT => ?_, fun t n ht hoff => ?_⟩
  · refine Lists.congr (Lists.restrict L₂ (fun h hh => (hvalid' h hh).2) (fun c h hh => ?_) fun c hc => ?_)
      (fun h hh => ?_) fun c h hh hc => ?_
    · have hne := (hvalid' h hh).1
      by_cases hc : on₂ c = some tb
      · simp [hc, Ne.symm hne]
      · simp [hc]
    · by_cases h : on₂ c = some tb
      · simp [h]
      · simpa [h] using hc
    · have hne := (hvalid' h hh).1
      have hfirst : on₂ (.first h) ≠ some tb := by simp [JmpLists.first_off L₂ h]
      exact (hread (.first h) (by simpa using hne)).trans (if_neg hfirst)
    · by_cases hctb : on₂ c = some tb
      · simp [hctb] at hc
      · refine (hread c ?_).trans (if_neg hctb)
        rintro rfl
        simp [JmpLists.first_off L₂ tb] at hc
  · by_cases hctb : on₂ (.next t n) = some tb
    · simp [hctb] at hT
    · simp only [hctb, if_false] at hT
      have htne : t ≠ tb := by
        rintro rfl
        simp [hself n] at hT
      rw [hother t n htne] at hT
      have hTne : T ≠ tb := by
        rintro rfl
        exact hctb (by rw [hother t n htne, hT])
      obtain ⟨hvt, hvT, hoff, htgt⟩ := R.slot t n T hT
      rw [hinfo, hvalid, update_of_ne htne, update_of_ne hTne, htarget t n, if_neg hctb]
      exact ⟨hvt, hvT, hoff, htgt⟩
  · obtain ⟨htne, hvt⟩ := hvalid' t ht
    rw [htarget t n, hinfo, hread (.next t n) (by simp)]
    by_cases hctb : on₂ (.next t n) = some tb
    · simp [hctb]
    · simp only [hctb, if_false] at hoff ⊢
      rw [hother t n htne] at hoff
      obtain ⟨hlink, hstub⟩ := R.free t n hvt hoff
      exact ⟨hnull _ hlink, hstub⟩

/-- The rings after the jump part of an invalidation: `s'` is the state that also
has `jmp_first` of the block reset and the block no longer valid. -/
theorem rings_invalidate (tb : TbId) (htb : s.valid tb = true) (hlt : ∀ t, s.valid t = true → t < s.nbTbs) :
    ∃ s₁ s₂ s₃, tbJmpRemove s tb 0 = .ok s₁ ∧ tbJmpRemove s₁ tb 1 = .ok s₂ ∧
      tbJmpUnchain (walkFuel s₂) s₂ (s₂.tbs tb).jmpFirst = .ok s₃ ∧ JmpStep s s₃ ∧
      ∀ s', info s' = info s → s'.valid = update s.valid tb false →
        readJmp s' = update (readJmp s₃) (.first tb) (some (.first tb)) →
        jmpTarget s' = jmpTarget s₃ → ∃ on', Rings s' on' := by
  have hslotlt : ∀ t n, (on (.next t n)).isSome → t < s.nbTbs := by
    intro t n h
    obtain ⟨T, hT⟩ := isSome_iff_exists.mp h
    exact hlt t (R.slot t n T hT).1
  obtain ⟨s₁, hok₁, L₁, hstep₁, htarget₁, hnull₁, hkeep₁⟩ := tbJmpRemove_spec R.lists tb 0
    (fun h => (R.free tb 0 htb h).1) (fun T hT => (R.slot tb 0 T hT).2.1) hslotlt
  have hon₁ : update on (.next tb 0) none (.next tb 1) = on (.next tb 1) :=
    update_of_ne (by simp) _ _
  obtain ⟨s₂, hok₂, L₂, hstep₂, htarget₂, hnull₂, hkeep₂⟩ := tbJmpRemove_spec L₁ tb 1
    (fun h => hkeep₁ _ (R.free tb 1 htb (hon₁ ▸ h)).1) (fun T hT => (R.slot tb 1 T (hon₁ ▸ hT)).2.1)
    (fun t n h => by
      rw [nbTbs_of_frame hstep₁.frame]
      rw [update_apply] at h
      split at h
      · cases h
      · exact hslotlt t n h)
  generalize hon₂ : update (update on (.next tb 0) none) (.next tb 1) none = on₂ at L₂
  have hself : ∀ n, on₂ (.next tb n) = none := by
    intro n
    rw [← hon₂]
    by_cases hn : n = 1
    · simp [hn]
    · obtain rfl : n = 0 := by omega
      simp
  have hother : ∀ t n, t ≠ tb → on₂ (.next t n) = on (.next t n) := by
    intro t n ht
    rw [← hon₂, update_of_ne (by simp [ht]), update_of_ne (by simp [ht])]
  have hstep₁₂ := hstep₁.trans hstep₂
  have hinfo₂ : info s₂ = info s := info_of_frame hstep₁₂.frame
  obtain ⟨l, hp, hl⟩ := L₂.path tb htb
  have hnodup : l.Nodup := L₂.nodup hp hl
  obtain ⟨s₃, hok₃, hstep₃, hread₃, htarget₃⟩ := tbJmpUnchain_spec l s₂ (walkFuel s₂) (s₂.tbs tb).jmpFirst
    (trail_iff_path.mpr hp) (fun c hc => JmpLists.exists_slot L₂ ((hl c).mp hc)) hnodup
    (JmpLists.fuel L₂ (fun t n h => by
      rw [nbTbs_of_frame hstep₁₂.frame]
      by_cases ht : t = tb
      · simp [ht, hself n] at h
      · exact hslotlt t n (hother t n ht ▸ h)) hnodup fun c hc => (hl c).mp hc)
  refine ⟨s₁, s₂, s₃, hok₁, hok₂, hok₃, hstep₁₂.trans hstep₃, fun s' hinfo hvalid hread htarget => ?_⟩
  refine ⟨_, rings_drop R L₂ hself hother (fun c hc => hkeep₂ c (hkeep₁ c hc)) hinfo hvalid (fun c hc => ?_)
    fun t n => ?_⟩
  · rw [hread, update_of_ne hc, hread₃ c]
    simp [hl]
  · rw [htarget, htarget₃ t n, hinfo₂, htarget₂, htarget₁]
    simp [hl]

/-- Chaining a slot of a valid block to a valid block; a chained slot stays. -/
theorem rings_tbAddJump {n : Fin 2} (htb : s.valid tb = true) (hT : s.valid T = true)
    (hslot : ((info s tb).tbNextOffset n).isSome) : ∃ on', Rings (tbAddJump s tb n T) on' := by
  unfold tbAddJump
  cases hlink : readJmp s (.next tb n) with
  | some k => exact ⟨on, R⟩
  | none =>
    have hoff : on (.next tb n) = none := (R.off_iff htb n).mpr hlink
    generalize hs' : writeJmp (writeJmp (tbSetJmpTarget s tb n (s.tbs T).tcPtr)
      (readJmp (tbSetJmpTarget s tb n (s.tbs T).tcPtr) (.first T)) (.next tb n)) (some (.next tb n)) (.first T) = s'
    have hread : readJmp s' =
        update (update (readJmp s) (.next tb n) (readJmp s (.first T))) (.first T) (some (.next tb n)) := by
      rw [← hs']
      simp
    have hstep : JmpStep s s' := by
      rw [← hs']
      exact ((jmpStep_tbSetJmpTarget s tb n _).trans (jmpStep_writeJmp _ _ _)).trans (jmpStep_writeJmp _ _ _)
    have htarget : ∀ t m, jmpTarget s' t m = if t = tb ∧ m = n then (info s T).tcPtr else jmpTarget s t m := by
      intro t m
      rw [← hs', (views_writeJmp _ _ _).2.2.2, (views_writeJmp _ _ _).2.2.2, jmpTarget_tbSetJmpTarget]
      rfl
    have hvalid : s'.valid = s.valid := valid_of_frame hstep.frame
    have hinfo : info s' = info s := info_of_frame hstep.frame
    refine ⟨update on (.next tb n) (some T), ?_, fun t m T' h => ?_, fun t m ht h => ?_⟩
    · unfold JmpLists
      rw [hread, hvalid]
      exact Lists.push R.lists hT (by simp [hoff]) (by simp [jmpShape]) (by simp [jmpShape])
    · rw [hvalid, hinfo, htarget]
      by_cases hm : t = tb ∧ m = n
      · obtain ⟨rfl, rfl⟩ := hm
        simp only [Function.update_self, Option.some.injEq] at h
        subst h
        exact ⟨htb, hT, hslot, by simp⟩
      · rw [update_of_ne (by simpa using hm)] at h
        simp only [hm, if_false]
        exact R.slot t m T' h
    · rw [hvalid] at ht
      by_cases hm : t = tb ∧ m = n
      · obtain ⟨rfl, rfl⟩ := hm
        simp at h
      have hne : next t m ≠ .next tb n := by simpa using hm
      rw [update_of_ne hne] at h
      rw [hinfo, htarget, hread, update_of_ne (by simp), update_of_ne hne]
      simp only [hm, if_false]
      exact R.free t m ht h

theorem rings_insert (hnew : s.valid tb = false)
    (hvalid : s'.valid = update s.valid tb true) (hinfo : ∀ t, t ≠ tb → info s' t = info s t)
    (hfirst : readJmp s' (.first tb) = some (.first tb)) (hnext : ∀ n, readJmp s' (.next tb n) = none)
    (hread : ∀ t, t ≠ tb → readJmp s' (.first t) = readJmp s (.first t) ∧
      ∀ n, readJmp s' (.next t n) = readJmp s (.next t n)) (htarget : ∀ t, t ≠ tb → jmpTarget s' t = jmpTarget s t)
    (hstub : ∀ n, ((info s' tb).tbNextOffset n).isSome → jmpTarget s' tb n = stub (info s' tb) n) : Rings s' on := by
  have hne : ∀ t, s.valid t = true → t ≠ tb := by
    rintro t ht rfl
    simp [hnew] at ht
  have hnoone : ∀ c, on c ≠ some tb := by
    intro c hc
    obtain ⟨t, n, rfl⟩ := JmpLists.exists_slot R.lists hc
    exact hne tb (R.slot t n tb hc).2.1 rfl
  refine ⟨?_, fun t n T h => ?_, fun t n ht h => ?_⟩
  · refine Lists.insert_head (h := tb) (Lists.congr R.lists (fun h hh => (hread h (hne h hh)).1) fun c h hh hc => ?_)
      (fun h hh => ?_) hfirst hnoone
    · obtain ⟨t, n, rfl⟩ := JmpLists.exists_slot R.lists hc
      exact (hread t (hne t (R.slot t n h hc).1)).2 n
    · rw [hvalid, update_apply] at hh
      split at hh
      · exact .inr ‹_›
      · exact .inl hh
  · obtain ⟨hvt, hvT, hoff, htgt⟩ := R.slot t n T h
    rw [hvalid, update_of_ne (hne t hvt), update_of_ne (hne T hvT), hinfo t (hne t hvt),
      hinfo T (hne T hvT), htarget t (hne t hvt)]
    exact ⟨hvt, hvT, hoff, htgt⟩
  · by_cases he : t = tb
    · subst he
      exact ⟨hnext n, hstub n⟩
    · rw [hvalid, update_of_ne he] at ht
      rw [hinfo t he, htarget t he, (hread t he).2 n]
      exact R.free t n ht h

end

end Rings

end GemDroid.Tb
