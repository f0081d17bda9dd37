import GemDroid.Ram.Discards

/-! A migration of RAM.

While it runs, the pages that are not dirty are the same on both sides, and the receiver is in
the block of the last page that was sent. Each page sent and each byte written keeps it so. In
the end no page is dirty. -/
namespace GemDroid.Ram
open Lib List Sender Receiver Nat
open List hiding mem_of_getElem?

variable {sources targets blocks : List Block} {pageSize hostPageSize off : Nat} {r : Receiver}
  {s : Sender} {b : Block}

/-- What both sides know of a block. -/
def Block.key (b : Block) : List Nat × Nat := (b.idstr, b.length)

open Block

/-- Every byte of the receiver's blocks is that of the sender's block of this name. -/
def SameRam (sources targets : List Block) (s : Sender) (r : Receiver) : Prop :=
  ∀ b' ∈ targets, ∃ b ∈ sources, b.idstr = b'.idstr ∧ b.length = b'.length ∧
    ∀ off < b'.length, r.mem (b'.host + off) = s.mem (b.host + off)

section Linked
variable {s' : Sender}

/-- The two sides between two records. -/
structure Linked (pageSize hostPageSize : Nat) (sources targets : List Block) (s : Sender) (r : Receiver) : Prop where
  ready : Ready pageSize s
  wf : Wf pageSize r.blocks
  source : s.blocks.Perm sources
  target : r.blocks = targets
  same : (s.blocks.map Block.key).Perm (r.blocks.map Block.key)
  block : ∀ i b, s.lastBlock = some i → s.blocks[i]? = some b →
    ∃ j b', r.block = some j ∧ r.blocks[j]? = some b' ∧ b'.idstr = b.idstr
  /-- Where nothing is discarded next to a page. -/
  clean : hostPageSize ∣ pageSize → ∀ b ∈ s.blocks, ∀ b' ∈ r.blocks, b'.idstr = b.idstr → ∀ off < b.length,
    s.dirty ((b.offset + off) / pageSize) = false → r.mem (b'.host + off) = s.mem (b.host + off)

theorem partner {blocks' : List Block} (h : (blocks.map key).Perm (blocks'.map key))
    (hb : b ∈ blocks) : ∃ b' ∈ blocks', b'.idstr = b.idstr ∧ b'.length = b.length := by
  obtain ⟨b', hb', heq⟩ := mem_map.mp (h.subset (mem_map_of_mem hb))
  exact ⟨b', hb', congrArg Prod.fst heq, congrArg Prod.snd heq⟩

theorem mem_page_iff {c : Block} {x : Nat} (hw : Wf pageSize blocks) (hsize : 0 < pageSize)
    (hb : b ∈ blocks) (hc : c ∈ blocks) (ho : off < b.length) (hd : pageSize ∣ off) (hx : x < c.length) :
    (c.offset + x) / pageSize = (b.offset + off) / pageSize ↔ c = b ∧ off ≤ x ∧ x < off + pageSize := by
  have hend := hw.page_le hb ho hd
  obtain ⟨o, hoff⟩ := hw.offset b hb
  obtain ⟨k, rfl⟩ := hd
  have hpage : (b.offset + pageSize * k) / pageSize = o + k := by
    rw [hoff, ← Nat.mul_add, Nat.mul_div_cancel_left _ hsize]
  have hsum : pageSize * (o + k) = b.offset + pageSize * k := by rw [Nat.mul_add, ← hoff]
  have hiff : (c.offset + x) / pageSize = o + k ↔
      b.offset + pageSize * k ≤ c.offset + x ∧ c.offset + x < b.offset + pageSize * k + pageSize := by
    rw [Nat.div_eq_iff hsize, mul_comm (o + k), hsum]
    omega
  rw [hpage, hiff]
  constructor
  · intro ⟨hlo, hhi⟩
    have hcb := hw.eq_of_ram hc hb hx (show c.offset + x - b.offset < b.length by omega) (by omega)
    subst hcb
    exact ⟨rfl, by omega⟩
  · intro ⟨hcb, hlo, hhi⟩
    subst hcb
    omega

section
variable (h : Linked pageSize hostPageSize sources targets s r)
include h

theorem Linked.send (hsize : 64 ≤ pageSize) (h4 : 4 ∣ pageSize) {i : Nat}
    (hb : s.blocks[i]? = some b) (ho : off < b.length) (hd : pageSize ∣ off) :
    ∃ r', Loads pageSize hostPageSize r (s.pageRecord pageSize b (decide (s.lastBlock = some i)) off).1 r' ∧
      Linked pageSize hostPageSize sources targets (sent s i off ((b.offset + off) / pageSize)) r' := by
  have hwf := h.ready.wf
  have hmem := mem_of_getElem? hb
  have hlen := hwf.length_le hmem
  obtain ⟨b', hb', hname, hlength⟩ := partner h.same hmem
  obtain ⟨j, hj⟩ := getElem?_of_mem hb'
  have hcont : decide (s.lastBlock = some i) = true → r.block = some j := by
    intro hlast
    obtain ⟨k, c, hk, hc, hcname⟩ := h.block i b (of_decide_eq_true hlast) hb
    have hcb := h.wf.eq_of_name (List.mem_of_getElem? hc) hb' (hcname.trans hname.symm)
    have hlt := (List.getElem?_eq_some_iff.mp hc).1
    rw [hk, (getElem?_inj hlt (List.Nodup.of_map _ h.wf.names)).mp (hc.trans (hcb ▸ hj.symm))]
  obtain ⟨r', hloads, hblocks, hblock, hpage⟩ := loads_pageRecord h.wf hj hcont hsize h4
    (by omega) hd s hname
  refine ⟨r', hloads, ?_⟩
  constructor
  · constructor
    · exact hwf
    · intro i' hi'
      cases hi'
      exact ⟨b, hb, ho, hd⟩
    · intro hnone
      cases hnone
  · exact hblocks ▸ h.wf
  · exact h.source
  · exact hblocks.trans h.target
  · exact hblocks ▸ h.same
  · intro i' c hi' hc
    cases hi'
    have hc' : s.blocks[i]? = some c := hc
    cases hb.symm.trans hc'
    exact ⟨j, b', hblock, hblocks ▸ hj, hname⟩
  · intro hdvd c hc c' hc' hcname x hx hclean
    rw [hblocks] at hc'
    have hcopied := hpage hdvd
    have hin := mem_page_iff hwf (show 0 < pageSize by omega) hmem hc ho hd hx
    have hclen : c'.length = c.length := by
      obtain ⟨c'', hc'', hn, hl⟩ := partner h.same hc
      rw [h.wf.eq_of_name hc' hc'' (hcname.trans hn.symm), hl]
    rw [hcopied]
    unfold copied
    dsimp only [sent] at hclean ⊢
    split at hclean
    next hpage =>
      -- a byte of the page that was sent
      obtain ⟨rfl, hlo, hhi⟩ := hin.mp hpage
      have hcc := h.wf.eq_of_name hc' hb' (hcname.trans hname.symm)
      rw [hcc, if_pos (by omega), show c.host + off + (b'.host + x - (b'.host + off)) = c.host + x by omega]
    next hother =>
      rw [if_neg, h.clean hdvd c hc c' hc' hcname x hx hclean]
      intro ⟨hlo, hhi⟩
      have hend := hwf.page_le hmem ho hd
      have hcc := h.wf.eq_of_host hc' hb' (hclen ▸ hx) (show c'.host + x - b'.host < b'.length by omega) (by omega)
      subst hcc
      have hcb := hwf.eq_of_name hc hmem (hcname.symm.trans hname)
      exact hother (hin.mpr ⟨hcb, by omega⟩)

theorem Linked.write (i off value : Nat) :
    Linked pageSize hostPageSize sources targets (s.write pageSize i off value) r := by
  unfold Sender.write
  split
  next => exact h
  next b hb =>
    split
    next ho =>
      have hdirty : ∀ p, hit pageSize s p = true → hit pageSize { s with
          mem := fun a => if a = b.host + off then value else s.mem a
          dirty := fun n => if n = (b.offset + off) / pageSize then true else s.dirty n } p = true := by
        intro p hp
        unfold hit address at hp ⊢
        dsimp only
        split
        next hnone =>
          rw [hnone] at hp
          exact hp
        next addr haddr =>
          rw [haddr] at hp
          dsimp only at hp
          rw [hp, ite_self]
      constructor
      · constructor
        · exact h.ready.wf
        · exact h.ready.begun
        · intro hnone
          obtain ⟨hzero, hall⟩ := h.ready.fresh hnone
          exact ⟨hzero, fun p hp => hdirty p (hall p hp)⟩
      · exact h.wf
      · exact h.source
      · exact h.target
      · exact h.same
      · exact h.block
      · intro hdvd c hc c' hc' hcname x hx hclean
        dsimp only at hc hclean ⊢
        split at hclean
        next => cases hclean
        next hother =>
          rw [if_neg, h.clean hdvd c hc c' hc' hcname x hx hclean]
          intro heq
          have hcb := h.ready.wf.eq_of_host hc (mem_of_getElem? hb) hx ho heq
          subst hcb
          exact hother (by rw [show x = off by omega])
    next => exact h

end

end Linked

/-! ### Stages -/

section Stages

theorem pageRecord_ne_zero (hsize : 64 ≤ pageSize) (b : Block) (cont : Bool) (off : Nat) :
    (s.pageRecord pageSize b cont off).2 ≠ 0 := by
  unfold pageRecord
  dsimp only
  split
  · exact one_ne_zero
  · dsimp only
    omega

theorem mem_pages (hw : Wf pageSize s.blocks) (hsize : 0 < pageSize) (hb : b ∈ s.blocks)
    (ho : off < b.length) : (b.offset + off) / pageSize ∈ s.pages pageSize := by
  unfold pages
  rw [mem_flatMap]
  refine ⟨b, hb, ?_⟩
  rw [mem_map]
  refine ⟨off / pageSize, mem_range.mpr (page_lt hw hb hsize ho), ?_⟩
  obtain ⟨o, hoff⟩ := hw.offset b hb
  rw [hoff, Nat.mul_div_cancel_left _ hsize, Nat.mul_add_div hsize]

theorem countP_clear_lt {dirty : Nat → Bool} {page : Nat} (hdirty : dirty page = true) {l : List Nat} (hl : page ∈ l) :
    (l.countP fun n => if n = page then false else dirty n) < l.countP dirty := by
  have hclear : (fun n => if n = page then false else dirty n) = fun n => dirty n && decide (n ≠ page) := by
    funext n
    by_cases hn : n = page <;> simp [hn]
  have hpos : 0 < (l.filter fun n => !decide (n ≠ page)).countP dirty := countP_pos_iff.mpr ⟨page, by simp [hl], hdirty⟩
  rw [hclear, countP_eq_countP_filter_add l dirty fun n => decide (n ≠ page), countP_filter]
  omega

theorem linked_setup (hs : Wf pageSize s.blocks) (hr : Wf pageSize r.blocks) (hsize : 64 ≤ pageSize)
    (hsame : (s.blocks.map key).Perm (r.blocks.map key)) :
    Loads pageSize hostPageSize r (s.setup pageSize).2 r ∧
      Linked pageSize hostPageSize s.blocks r.blocks (s.setup pageSize).1 r := by
  have hperm : (s.setup pageSize).1.blocks.Perm s.blocks := perm_insertionSort _ _
  have hwf : Wf pageSize (s.setup pageSize).1.blocks := hs.perm hperm.symm
  have hsame' := (hperm.map key).trans hsame
  have hdirty : ∀ b ∈ (s.setup pageSize).1.blocks, ∀ off < b.length,
      (s.setup pageSize).1.dirty ((b.offset + off) / pageSize) = true := by
    intro b hb off ho
    have hpages := mem_pages hwf (by omega) hb ho
    exact Bool.or_eq_true_iff.mpr (.inl (decide_eq_true hpages))
  refine ⟨loads_header hr hsize hwf (fun b hb => partner hsame' hb), ?_⟩
  constructor
  · constructor
    · exact hwf
    · intro i hi
      cases hi
    · intro _
      refine ⟨rfl, ?_⟩
      intro p ⟨b, hb, ho, _⟩
      rw [hit_eq hb]
      exact hdirty b (mem_of_getElem? hb) _ ho
  · exact hr
  · exact hperm
  · rfl
  · exact hsame'
  · intro i b hi
    cases hi
  · intro _ b hb b' _ _ off ho hclean
    rw [hdirty b hb off ho] at hclean
    cases hclean

section
variable (hsize : 64 ≤ pageSize) (h4 : 4 ∣ pageSize)
include hsize h4

theorem Linked.saveSome (n : Nat)
    (h : Linked pageSize hostPageSize sources targets s r) : ∃ s' bytes r', s.saveSome pageSize n = .ok (s', bytes) ∧
      Loads pageSize hostPageSize r bytes r' ∧ Linked pageSize hostPageSize sources targets s' r' := by
  induction n generalizing s r with
  | zero => exact ⟨s, [], r, rfl, Loads.refl r, h⟩
  | succ n ih =>
    rw [saveSome]
    obtain ⟨i, off, b, hb, ho, hd, -, hsave⟩ | ⟨hsave, -⟩ := h.ready.ramSaveBlock (by omega)
    · obtain ⟨r₁, hloads, hlinked⟩ := h.send hsize h4 hb ho hd
      obtain ⟨s', more, r', hmore, hloads', hlinked'⟩ := ih hlinked
      rw [hsave, ok_bind]
      dsimp only
      rw [if_neg (pageRecord_ne_zero hsize _ _ _), hmore, ok_bind]
      exact ⟨s', _, r', rfl, hloads.trans hloads', hlinked'⟩
    · rw [hsave, ok_bind]
      exact ⟨s, [], r, rfl, Loads.refl r, h⟩

theorem Linked.saveAll (n : Nat)
    (h : Linked pageSize hostPageSize sources targets s r) (hn : s.ramSaveRemaining pageSize < n) :
    ∃ s' bytes r', s.saveAll pageSize n = .ok (s', bytes) ∧
      Loads pageSize hostPageSize r bytes r' ∧ Linked pageSize hostPageSize sources targets s' r' ∧
      ∀ p, Valid pageSize s' p → hit pageSize s' p = false := by
  induction n generalizing s r with
  | zero => exact absurd hn (not_lt_zero _)
  | succ n ih =>
    rw [saveAll]
    obtain ⟨i, off, b, hb, ho, hd, hdirty, hsave⟩ | ⟨hsave, hnone⟩ := h.ready.ramSaveBlock (by omega)
    · obtain ⟨r₁, hloads, hlinked⟩ := h.send hsize h4 hb ho hd
      have hless : (sent s i off ((b.offset + off) / pageSize)).ramSaveRemaining pageSize <
          s.ramSaveRemaining pageSize :=
        countP_clear_lt hdirty (mem_pages h.ready.wf (by omega) (mem_of_getElem? hb) ho)
      obtain ⟨s', more, r', hmore, hloads', hlinked', hnone⟩ := ih hlinked (by omega)
      rw [hsave, ok_bind]
      dsimp only
      rw [if_neg (pageRecord_ne_zero hsize _ _ _), hmore, ok_bind]
      exact ⟨s', _, r', rfl, hloads.trans hloads', hlinked', hnone⟩
    · rw [hsave, ok_bind]
      exact ⟨s, [], r, rfl, Loads.refl r, h, hnone⟩

theorem Linked.events (evs : List Event)
    (h : Linked pageSize hostPageSize sources targets s r) : ∃ s' sections, s.events pageSize evs = .ok (s', sections) ∧
      ∃ r', (∀ rest, r.ramLoadAll pageSize hostPageSize (sections ++ rest) =
        r'.ramLoadAll pageSize hostPageSize rest) ∧ Linked pageSize hostPageSize sources targets s' r' := by
  induction evs generalizing s r with
  | nil => exact ⟨s, [], rfl, r, fun _ => rfl, h⟩
  | cons ev evs ih =>
    cases ev with
    | write i off value =>
      exact ih (h.write i off value)
    | stage2 rounds =>
      obtain ⟨s₁, bytes, r₁, hsave, hloads, hlinked⟩ := h.saveSome hsize h4 rounds
      obtain ⟨s', sections, hevents, r', hall, hlinked'⟩ := ih hlinked
      rw [events, stage2, hsave, ok_bind]
      rw [ok_bind]
      dsimp only
      rw [hevents, ok_bind]
      refine ⟨s', _, rfl, r', ?_, hlinked'⟩
      intro rest
      rw [cons_append, Receiver.ramLoadAll, hloads.ramLoad hsize, ok_bind]
      exact hall rest

end

theorem Linked.ram_eq (h : Linked pageSize hostPageSize sources targets s r) (hsize : 0 < pageSize)
    (hnone : ∀ p, Valid pageSize s p → hit pageSize s p = false) (hdvd : hostPageSize ∣ pageSize) :
    SameRam sources targets s r := by
  intro b' hb'
  rw [← h.target] at hb'
  obtain ⟨b, hb, hname, hlength⟩ := partner h.same.symm hb'
  refine ⟨b, h.source.subset hb, hname, hlength, ?_⟩
  intro off ho
  rw [← hlength] at ho
  apply h.clean hdvd b hb b' hb' hname.symm off ho
  obtain ⟨i, hi⟩ := getElem?_of_mem hb
  have hfloor : off / pageSize * pageSize ≤ off := div_mul_le_self off pageSize
  have hlt : off < off / pageSize * pageSize + pageSize := by
    rw [← add_one_mul, mul_comm]
    exact lt_mul_div_succ off hsize
  have hclean := hnone (i, off / pageSize * pageSize) ⟨b, hi, by dsimp only; omega, dvd_mul_left _ _⟩
  rw [hit_eq hi] at hclean
  rwa [(mem_page_iff h.ready.wf hsize hb hb (by omega) (dvd_mul_left _ _) ho).mpr ⟨rfl, hfloor, hlt⟩]

end Stages

section
variable (hsize : 64 ≤ pageSize) (h4 : 4 ∣ pageSize) (hs : Wf pageSize s.blocks) (hr : Wf pageSize r.blocks)
  (hsame : (s.blocks.map key).Perm (r.blocks.map key))
include hsize h4 hs hr hsame

/-- A migration ends and its sections are accepted by a machine with the same blocks. Where the
pages of the host are not larger, they leave it with the RAM of the sender. -/
theorem migrated (hostPageSize rounds₁ rounds₃ : Nat) (evs : List Event) :
    ∃ s' sections r', s.migrate pageSize rounds₁ evs rounds₃ = .ok (s', sections) ∧
      r.ramLoadAll pageSize hostPageSize sections = .ok r' ∧
      (hostPageSize ∣ pageSize → SameRam s.blocks r.blocks s' r') := by
  obtain ⟨hloads₀, h₀⟩ := linked_setup hs hr hsize hsame
  obtain ⟨s₁, bytes₁, r₁, hsave₁, hloads₁, h₁⟩ := h₀.saveSome hsize h4 rounds₁
  obtain ⟨s₂, sections, hevents, r₂, hall, h₂⟩ := h₁.events hsize h4 evs
  obtain ⟨s₃, bytes₃, r₃, hsave₃, hloads₃, h₃⟩ := h₂.saveSome hsize h4 rounds₃
  obtain ⟨s₄, bytes₄, r₄, hsave₄, hloads₄, h₄, hnone⟩ := h₃.saveAll hsize h4 _ (lt_succ_self _)
  have hstage₁ : s.stage1 pageSize rounds₁ = .ok (s₁, (s.setup pageSize).2 ++ bytes₁ ++ putBe64 flagEos) := by
    rw [stage1, hsave₁, ok_bind]
  have hstage₃ : s₂.stage3 pageSize rounds₃ = .ok (s₄, bytes₃ ++ bytes₄ ++ putBe64 flagEos) := by
    rw [stage3, hsave₃, ok_bind]
    dsimp only
    rw [hsave₄, ok_bind]
  refine ⟨s₄, ((s.setup pageSize).2 ++ bytes₁ ++ putBe64 flagEos) :: sections ++
    [bytes₃ ++ bytes₄ ++ putBe64 flagEos], r₄, ?_, ?_, ?_⟩
  · rw [migrate, hstage₁, ok_bind]
    dsimp only
    rw [hevents, ok_bind]
    dsimp only
    rw [hstage₃, ok_bind]
  · rw [cons_append, Receiver.ramLoadAll, (hloads₀.trans hloads₁).ramLoad hsize, ok_bind]
    dsimp only
    rw [if_pos rfl, hall, Receiver.ramLoadAll, (hloads₃.trans hloads₄).ramLoad hsize, ok_bind]
    rfl
  · exact h₄.ram_eq (by omega) hnone

end

/-- A migration ends and its sections are accepted by a machine with the same blocks, whatever its
RAM holds. They leave it with the RAM of the sender exactly if no load of a zero page discards a
byte next to the page that is needed. Where the pages of the host are not larger than those of the
target, none does. -/
theorem ram_migrated_iff {pageSize : Nat} (hsize : 64 ≤ pageSize) (h4 : 4 ∣ pageSize) {s : Sender}
    {r : Receiver} (hs : Wf pageSize s.blocks) (hr : Wf pageSize r.blocks)
    (hsame : (s.blocks.map key).Perm (r.blocks.map key)) (hostPageSize rounds₁ rounds₃ : Nat) (evs : List Event) :
    ∃ s' sections r', s.migrate pageSize rounds₁ evs rounds₃ = .ok (s', sections) ∧
      r.ramLoadAll pageSize hostPageSize sections = .ok r' ∧
      (SameRam s.blocks r.blocks s' r' ↔ Keeps pageSize hostPageSize (r, sections)) ∧
      (hostPageSize ∣ pageSize → Keeps pageSize hostPageSize (r, sections)) := by
  obtain ⟨s', sections, r', hmigrate, hload, hequal⟩ := migrated hsize h4 hs hr hsame hostPageSize rounds₁ rounds₃ evs
  -- a host with pages of one byte discards nothing next to a page
  obtain ⟨s'', sections', q', hmigrate', hload', hideal⟩ := migrated hsize h4 hs hr hsame 1 rounds₁ rounds₃ evs
  obtain ⟨rfl, rfl⟩ := Prod.mk.inj (Except.ok.inj (hmigrate.symm.trans hmigrate'))
  have hq := hideal (one_dvd _)
  have hiff : SameRam s.blocks r.blocks s' r' ↔ Keeps pageSize hostPageSize (r, sections) := by
    rw [← keeps_iff (by omega) hload hload']
    constructor
    · rintro hsame' a ⟨b', hb', hlo, hhi⟩
      obtain ⟨b, hb, hname, -, hmem⟩ := hsame' b' hb'
      obtain ⟨c, hc, hname', -, hmem'⟩ := hq b' hb'
      obtain ⟨x, rfl⟩ := Nat.exists_eq_add_of_le hlo
      rw [hmem x (by omega), hmem' x (by omega), hs.eq_of_name hb hc (hname.trans hname'.symm)]
    · intro hagree b' hb'
      obtain ⟨b, hb, hname, hlen, hmem⟩ := hq b' hb'
      refine ⟨b, hb, hname, hlen, fun off ho => ?_⟩
      rw [hagree _ ⟨b', hb', by omega, by omega⟩, hmem off ho]
  exact ⟨s', sections, r', hmigrate, hload, hiff, fun hdvd => hiff.mp (hequal hdvd)⟩

section Runs
variable (pageSize : Nat)

/-- Four pages. -/
def androidArm : Block :=
  { idstr := [0x61, 0x6e, 0x64, 0x72, 0x6f, 0x69, 0x64, 0x5f, 0x61, 0x72, 0x6d], offset := 0, length := 4 * pageSize,
    host := 0 }

/-- Its first page has one byte that may be other than zero, the others are made of sevens. -/
def sender (first : Nat) : Sender where
  blocks := [androidArm pageSize]
  mem := fun a => if a = 0 then first else if a < pageSize then 0 else 7
  dirty := fun _ => false
  lastBlock := none
  lastOffset := 0

/-- A machine that has been running. -/
def receiver : Receiver where
  blocks := [androidArm pageSize]
  mem := fun _ => 5
  block := none

end Runs

theorem androidArm_wf : Wf 64 [androidArm 64] := by
  constructor <;> decide

/-- The first page is loaded as zero, and the discard takes what the machine had in the three pages
behind it. They are loaded next. -/
theorem ram_migrated_androidArm : ∃ s' sections r',
    (sender 64 0).migrate 64 4 [.write 0 64 8] 0 = .ok (s', sections) ∧
    (receiver 64).ramLoadAll 64 256 sections = .ok r' ∧ Keeps 64 256 (receiver 64, sections) ∧
    SameRam [androidArm 64] [androidArm 64] s' r' := by
  obtain ⟨s', sections, r', hmigrate, hload, hiff, -⟩ := ram_migrated_iff (s := sender 64 0) (r := receiver 64)
    (by decide) (by decide) androidArm_wf androidArm_wf (List.Perm.refl _) 256 4 0 [.write 0 64 8]
  have hrun : (((sender 64 0).migrate 64 4 [.write 0 64 8] 0).toOption.bind fun p =>
      ((receiver 64).ramLoadAll 64 256 p.2).toOption.map fun r' =>
        (range 256).all fun off => decide (r'.mem off = p.1.mem off)) = some true := by
    decide +kernel
  have hmem : ∀ off < 256, r'.mem off = s'.mem off := by
    simpa [hmigrate, hload, Except.toOption] using hrun
  have hsame : SameRam [androidArm 64] [androidArm 64] s' r' := by
    intro b' hb'
    obtain rfl := mem_singleton.mp hb'
    refine ⟨androidArm 64, mem_singleton_self _, rfl, rfl, fun off ho => ?_⟩
    have := hmem off ho
    rwa [← Nat.zero_add off] at this
  exact ⟨s', sections, r', hmigrate, hload, hiff.mp hsame, hsame⟩

/-- The guest clears the byte. Its page is sent again as zero, and loading it discards the three
pages behind it. -/
theorem ram_lost : ∃ s' sections r', (sender 1024 1).migrate 1024 4 [.write 0 0 0] 0 = .ok (s', sections) ∧
    (receiver 1024).ramLoadAll 1024 4096 sections = .ok r' ∧ s'.mem 1024 = 7 ∧ r'.mem 1024 = 0 := by
  have hrun : (((sender 1024 1).migrate 1024 4 [.write 0 0 0] 0).toOption.bind fun p =>
      ((receiver 1024).ramLoadAll 1024 4096 p.2).toOption.map fun r' => (p.1.mem 1024, r'.mem 1024)) = some (7, 0) := by
    decide +kernel
  cases hs : (sender 1024 1).migrate 1024 4 [.write 0 0 0] 0 with
  | error e =>
    rw [hs] at hrun
    cases hrun
  | ok p =>
    cases hr : (receiver 1024).ramLoadAll 1024 4096 p.2 with
    | error e =>
      rw [hs] at hrun
      simp [Except.toOption, hr] at hrun
    | ok r' =>
      rw [hs] at hrun
      simp [Except.toOption, hr] at hrun
      exact ⟨p.1, p.2, r', rfl, hr, hrun⟩

end GemDroid.Ram
