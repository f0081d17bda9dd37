import GemDroid.Ram.Records
import Mathlib.Logic.Relation

/-! What a load of a zero page takes from the pages next to it.

A zero page is given back to the host with `qemu_madvise`, which discards whole pages of the
host. So a receiver whose host has larger pages is compared, record by record, with one whose
host has pages of a single byte and discards nothing but the page. The two end with the same RAM
exactly if every byte that is discarded next to a page is zero or is loaded later. -/
namespace GemDroid.Ram
open Lib List Nat Relation

variable {pageSize hostPageSize a : Nat} {r r' q q' : Receiver} {f : List Nat} {sections : List (List Nat)}

/-! ### The condition -/

/-- What a record of the stream does, the memory apart. Of a page it has the address, whether it is
a zero page, and the bytes. -/
structure Record where
  page : Option (Nat × Bool × (Nat → Nat))
  block : Option Nat
  rest : List Nat
  eos : Bool

namespace Receiver
variable (pageSize hostPageSize)

/-- The next record of the stream. -/
def record (r : Receiver) (f : List Nat) : Except LoadError Record := do
  let (addr, f) ← getBe64 f
  let flags := addr % pageSize
  let addr := addr / pageSize * pageSize
  let cont := decide (flags / flagContinue % 2 = 1)
  let eos := decide (flags / flagEos % 2 = 1)
  if flags / flagMemSize % 2 = 1 then do
    let f ← r.checkBlocks (f.length + 1) addr f
    .ok ⟨none, r.block, f, eos⟩
  else if flags / flagCompress % 2 = 1 then do
    let (r, host, f) ← r.hostFromStreamOffset addr cont f
    match host with
    | none => .error .inval
    | some host =>
      let (ch, f) ← getByte f
      .ok ⟨some (host, decide (ch = 0), fun _ => ch), r.block, f, eos⟩
  else if flags / flagPage % 2 = 1 then do
    let (r, host, f) ← r.hostFromStreamOffset addr cont f
    match host with
    | none => .error .nullHost
    | some host =>
      let (page, f) ← getBuffer pageSize f
      .ok ⟨some (host, false, fun k => page.getD k 0), r.block, f, eos⟩
  else .ok ⟨none, r.block, f, eos⟩

end Receiver

/-- A receiver and the sections it has still to load. -/
abbrev Loading := Receiver × List (List Nat)

section
variable (pageSize hostPageSize)

/-- One record is read and loaded. -/
inductive Next : Loading → Loading → Prop
  | record {r r' : Receiver} {f f' : List Nat} {rest : List (List Nat)}
    (h : r.loadRecord pageSize hostPageSize f = .ok (r', f', false)) : Next (r, f :: rest) (r', f' :: rest)
  | last {r r' : Receiver} {f : List Nat} {rest : List (List Nat)}
    (h : r.loadRecord pageSize hostPageSize f = .ok (r', [], true)) : Next (r, f :: rest) (r', rest)

/-- The next record loads a page that begins at `host`. -/
def LoadsAt (c : Loading) (host : Nat) (isZero : Bool) : Prop :=
  ∃ f rest rec page, c.2 = f :: rest ∧ c.1.record pageSize f = .ok rec ∧ rec.page = some (host, isZero, page)

/-- A record yet to come loads the page of the byte. -/
def Pending (c : Loading) (a : Nat) : Prop :=
  ∃ c' host isZero, ReflTransGen (Next pageSize hostPageSize) c c' ∧ LoadsAt pageSize c' host isZero ∧
    host ≤ a ∧ a < host + pageSize

/-- The host address is one of the receiver's RAM. -/
def InRam (blocks : List Block) (a : Nat) : Prop := ∃ b ∈ blocks, b.host ≤ a ∧ a < b.host + b.length

/-- If the next record loads a zero page at the start of a page of the host, every byte of RAM
behind it that the host discards is zero or is loaded later. -/
def Harmless (c : Loading) : Prop :=
  ∀ host, LoadsAt pageSize c host true → host % hostPageSize = 0 → ∀ a, InRam c.1.blocks a →
    host + pageSize ≤ a → a < host + Receiver.discarded pageSize hostPageSize →
    c.1.mem a = 0 ∨ Pending pageSize hostPageSize c a

/-- Every load is harmless. -/
def Keeps (c : Loading) : Prop := ∀ c', ReflTransGen (Next pageSize hostPageSize) c c' → Harmless pageSize hostPageSize c'

/-! ### One record -/

/-- The memory after the pages of the host from `host` on have been discarded. -/
def discardAt (mem : Nat → Nat) (host : Nat) : Nat → Nat :=
  fun a => if host % hostPageSize = 0 ∧ host ≤ a ∧ a < host + Receiver.discarded pageSize hostPageSize then 0 else mem a

/-- The memory after the record: a page of the host that a zero page begins is discarded, and the
page is loaded. -/
def Record.mem (rec : Record) (mem : Nat → Nat) : Nat → Nat :=
  match rec.page with
  | none => mem
  | some (host, isZero, page) =>
    copied pageSize (if isZero then discardAt pageSize hostPageSize mem host else mem) host page

end

theorem checkBlocks_congr (h : q.blocks = r.blocks) (fuel : Nat) :
    ∀ total f, q.checkBlocks fuel total f = r.checkBlocks fuel total f := by
  induction fuel with
  | zero => exact fun total f => rfl
  | succ fuel ih =>
    intro total f
    simp only [Receiver.checkBlocks, h, ih]

theorem hostFromStreamOffset_congr (h : q.blocks = r.blocks) (hb : q.block = r.block) (offset : Nat) (cont : Bool)
    (f : List Nat) : q.hostFromStreamOffset offset cont f = (r.hostFromStreamOffset offset cont f).map fun p =>
      ({ q with block := p.1.block }, p.2) := by
  unfold Receiver.hostFromStreamOffset
  rw [h, hb]
  split
  · rw [Except.map, ← hb, ← h]
  · cases getName f with
    | error e => rfl
    | ok p => rfl

theorem record_congr (h : q.blocks = r.blocks) (hb : q.block = r.block) (f : List Nat) :
    q.record pageSize f = r.record pageSize f := by
  unfold Receiver.record
  cases getBe64 f with
  | error e => rfl
  | ok p =>
    simp only [ok_bind, checkBlocks_congr h, hostFromStreamOffset_congr h hb, hb]
    split
    · rfl
    · cases r.hostFromStreamOffset (p.1 / pageSize * pageSize) (decide (p.1 % pageSize / flagContinue % 2 = 1)) p.2 with
      | error e => rfl
      | ok x => rfl

theorem memset_madvise_eq (r : Receiver) (host : Nat) :
    (r.memset pageSize host 0).madvise pageSize hostPageSize host =
      { r with mem := copied pageSize (discardAt pageSize hostPageSize r.mem host) host (fun _ => 0) } := by
  have hmem : ∀ s : Receiver, s = { r with mem := s.mem } → ∀ m, s.mem = m → s = { r with mem := m } := by
    rintro s hs m rfl
    exact hs
  refine hmem _ ?_ _ ?_
  · unfold Receiver.madvise
    split <;> rfl
  · unfold Receiver.madvise Receiver.memset copied discardAt
    funext a
    split
    next h =>
      dsimp only
      simp only [h, true_and]
      by_cases hpage : host ≤ a ∧ a < host + pageSize
      · rw [if_pos hpage, if_pos hpage, ite_self]
      · rw [if_neg hpage, if_neg hpage]
    next h => simp [h]

theorem loadRecord_eq (r : Receiver) (f : List Nat) : r.loadRecord pageSize hostPageSize f =
    (r.record pageSize f).map fun rec =>
      ({ r with block := rec.block, mem := rec.mem pageSize hostPageSize r.mem }, rec.rest, rec.eos) := by
  unfold Receiver.record Receiver.loadRecord
  cases getBe64 f with
  | error e => rfl
  | ok p =>
    simp only [ok_bind]
    split
    · cases r.checkBlocks (p.2.length + 1) (p.1 / pageSize * pageSize) p.2 with
      | error e => rfl
      | ok f' => rfl
    -- the receiver changes in its block alone before the page is loaded
    have hhost := hostFromStreamOffset_congr (q := r) rfl rfl (p.1 / pageSize * pageSize)
      (decide (p.1 % pageSize / flagContinue % 2 = 1)) p.2
    cases hx : r.hostFromStreamOffset (p.1 / pageSize * pageSize) (decide (p.1 % pageSize / flagContinue % 2 = 1)) p.2 with
    | error e =>
      split
      · rfl
      split
      · rfl
      · rfl
    | ok x =>
      obtain ⟨r₁, host, f₁⟩ := x
      rw [hx] at hhost
      obtain ⟨hr₁, -⟩ := Prod.mk.inj (Except.ok.inj hhost)
      rw [hr₁]
      split
      · cases host with
        | none => rfl
        | some host =>
          cases f₁ with
          | nil => rfl
          | cons ch f₁ =>
            simp only [ok_bind, getByte]
            by_cases hch : ch = 0
            · subst hch
              simp only [if_true, memset_madvise_eq]
              simp [Except.map, Record.mem]
            · simp [hch, Except.map, Record.mem, Receiver.memset]
              rfl
      split
      · cases host with
        | none => rfl
        | some host =>
          simp only [ok_bind]
          cases getBuffer pageSize f₁ with
          | error e => rfl
          | ok y =>
            simp [ok_bind, Except.map, Record.mem]
            rfl
      · rfl

/-! ### Runs -/

/-- The receiver after a record. -/
def Receiver.after (pageSize hostPageSize : Nat) (r : Receiver) (rec : Record) : Receiver :=
  { r with block := rec.block, mem := rec.mem pageSize hostPageSize r.mem }

def Record.left (rec : Record) (rest : List (List Nat)) : List (List Nat) :=
  if rec.eos then rest else rec.rest :: rest

theorem next_iff {c : Loading} : Next pageSize hostPageSize (r, sections) c ↔ ∃ f rest rec, sections = f :: rest ∧
    r.record pageSize f = .ok rec ∧ (rec.eos = true → rec.rest = []) ∧
    c = (r.after pageSize hostPageSize rec, rec.left rest) := by
  constructor
  · intro h
    cases h with
    | @record _ r' f f' rest h =>
      rw [loadRecord_eq] at h
      obtain ⟨rec, hrec, heq⟩ := exists_ok_of_map h
      obtain ⟨rfl, hrest, heos⟩ := Prod.mk.inj heq |>.imp id Prod.mk.inj
      exact ⟨f, rest, rec, rfl, hrec, by simp [heos], by simp [Record.left, heos, hrest, Receiver.after]⟩
    | @last _ r' f rest h =>
      rw [loadRecord_eq] at h
      obtain ⟨rec, hrec, heq⟩ := exists_ok_of_map h
      obtain ⟨rfl, hrest, heos⟩ := Prod.mk.inj heq |>.imp id Prod.mk.inj
      exact ⟨f, rest, rec, rfl, hrec, fun _ => hrest, by simp [Record.left, heos, Receiver.after]⟩
  · rintro ⟨f, rest, rec, rfl, hrec, heos, rfl⟩
    have hload : r.loadRecord pageSize hostPageSize f = .ok (r.after pageSize hostPageSize rec, rec.rest, rec.eos) := by
      rw [loadRecord_eq, hrec]
      rfl
    unfold Record.left
    split
    next h =>
      rw [h, heos h] at hload
      exact .last hload
    next h =>
      rw [Bool.not_eq_true] at h
      rw [h] at hload
      exact .record hload

theorem Next.deterministic {c c₁ c₂ : Loading} (h₁ : Next pageSize hostPageSize c c₁)
    (h₂ : Next pageSize hostPageSize c c₂) : c₁ = c₂ := by
  obtain ⟨f, rest, rec, hf, hrec, -, rfl⟩ := next_iff.mp h₁
  obtain ⟨f', rest', rec', hf', hrec', -, rfl⟩ := next_iff.mp h₂
  obtain ⟨rfl, rfl⟩ := cons.inj (hf.symm.trans hf')
  rw [Except.ok.inj (hrec.symm.trans hrec')]

theorem loadLoop_run {rest : List (List Nat)} (fuel : Nat) :
    ∀ {r : Receiver} {f : List Nat}, Receiver.loadLoop pageSize hostPageSize fuel r f = .ok (r', []) →
      ReflTransGen (Next pageSize hostPageSize) (r, f :: rest) (r', rest) := by
  induction fuel with
  | zero => exact fun h => by cases h
  | succ fuel ih =>
    intro r f h
    rw [Receiver.loadLoop] at h
    obtain ⟨⟨r₁, f₁, eos⟩, hload, h⟩ := exists_ok_of_bind h
    cases eos with
    | true =>
      obtain ⟨rfl, rfl⟩ := Prod.mk.inj (Except.ok.inj h)
      exact .single (.last hload)
    | false => exact .head (.record hload) (ih h)

theorem ramLoadAll_run (sections : List (List Nat)) : ∀ {r : Receiver},
    r.ramLoadAll pageSize hostPageSize sections = .ok r' →
      ReflTransGen (Next pageSize hostPageSize) (r, sections) (r', []) := by
  induction sections with
  | nil =>
    intro r h
    cases h
    exact .refl
  | cons f rest ih =>
    intro r h
    rw [Receiver.ramLoadAll] at h
    obtain ⟨⟨r₁, left⟩, hload, h⟩ := exists_ok_of_bind h
    dsimp only at h
    split at h
    next hleft =>
      subst hleft
      exact (loadLoop_run _ hload).trans (ih h)
    next => cases h

section
variable {c c₁ : Loading}

/-- The page of the byte is not the one that is loaded next. -/
def NotNext (pageSize : Nat) (rec : Record) (a : Nat) : Prop :=
  ∀ host isZero page, rec.page = some (host, isZero, page) → ¬(host ≤ a ∧ a < host + pageSize)

theorem Record.mem_none {rec : Record} (mem : Nat → Nat) (h : rec.page = none) :
    rec.mem pageSize hostPageSize mem = mem := by
  unfold Record.mem
  rw [h]

theorem Record.mem_some {rec : Record} {host : Nat} {isZero : Bool} {page : Nat → Nat} (mem : Nat → Nat)
    (h : rec.page = some (host, isZero, page)) : rec.mem pageSize hostPageSize mem =
      copied pageSize (if isZero then discardAt pageSize hostPageSize mem host else mem) host page := by
  unfold Record.mem
  rw [h]

theorem Record.mem_of_notNext {rec : Record} (mem : Nat → Nat) (h : NotNext pageSize rec a)
    (hz : mem a = 0 ∨ Receiver.discarded pageSize hostPageSize = pageSize) :
    rec.mem pageSize hostPageSize mem a = mem a := by
  cases hpage : rec.page with
  | none => rw [rec.mem_none mem hpage]
  | some p =>
    obtain ⟨host, isZero, page⟩ := p
    have hnot := h host isZero page hpage
    rw [rec.mem_some mem hpage, copied, if_neg hnot]
    split
    next =>
      unfold discardAt
      split
      next hin =>
        obtain hz | hz := hz
        · exact hz.symm
        · rw [hz] at hin
          exact absurd hin.2 hnot
      next => rfl
    next => rfl

theorem notNext_of_not_pending {f : List Nat} {rest : List (List Nat)} {rec : Record}
    (hp : ¬Pending pageSize hostPageSize (r, f :: rest) a) (hrec : r.record pageSize f = .ok rec) :
    NotNext pageSize rec a := by
  intro host isZero page hpage hin
  exact hp ⟨_, host, isZero, .refl, ⟨f, rest, rec, page, rfl, hrec, hpage⟩, hin⟩

theorem not_pending_next (hn : Next pageSize hostPageSize c c₁) (hp : ¬Pending pageSize hostPageSize c a) :
    ¬Pending pageSize hostPageSize c₁ a := by
  rintro ⟨c', host, isZero, hrun, hload⟩
  exact hp ⟨c', host, isZero, .head hn hrun, hload⟩

/-- A byte that no record loads stays, if it is zero or nothing is discarded next to a page. -/
theorem mem_of_not_pending (h : ReflTransGen (Next pageSize hostPageSize) c c₁) :
    ¬Pending pageSize hostPageSize c a → c.1.mem a = 0 ∨ Receiver.discarded pageSize hostPageSize = pageSize →
      c₁.1.mem a = c.1.mem a := by
  induction h using ReflTransGen.head_induction_on with
  | refl => exact fun _ _ => rfl
  | @head c c₂ hn _ ih =>
    intro hp hz
    obtain ⟨r, sections⟩ := c
    have hp₂ := not_pending_next hn hp
    obtain ⟨f, rest, rec, rfl, hrec, -, rfl⟩ := next_iff.mp hn
    have hmem : (r.after pageSize hostPageSize rec).mem a = r.mem a :=
      rec.mem_of_notNext r.mem (notNext_of_not_pending hp hrec) hz
    rw [ih hp₂ (by rw [hmem]; exact hz), hmem]

end

/-! ### Two receivers -/

/-- The two differ in memory alone. -/
def Twins (q r : Receiver) : Prop := q.blocks = r.blocks ∧ q.block = r.block

theorem Twins.next {c : Loading} (h : Twins q r) (hn : Next pageSize hostPageSize (r, sections) c) :
    ∃ f rest rec, sections = f :: rest ∧ r.record pageSize f = .ok rec ∧
      c = (r.after pageSize hostPageSize rec, rec.left rest) ∧
      ∀ n, Next pageSize n (q, sections) (q.after pageSize n rec, rec.left rest) ∧
        Twins (q.after pageSize n rec) c.1 := by
  obtain ⟨f, rest, rec, rfl, hrec, heos, rfl⟩ := next_iff.mp hn
  have hrec' := (record_congr h.1 h.2 f).trans hrec
  exact ⟨f, rest, rec, rfl, hrec, rfl, fun n => ⟨next_iff.mpr ⟨f, rest, rec, rfl, hrec', heos, rfl⟩, h.1, rfl⟩⟩

theorem Twins.pending {n : Nat} (h : Twins q r) (hp : Pending pageSize n (q, sections) a) :
    Pending pageSize hostPageSize (r, sections) a := by
  obtain ⟨c', host, isZero, hrun, hload, hin⟩ := hp
  generalize hc : (q, sections) = c at hrun
  induction hrun using ReflTransGen.head_induction_on generalizing q r sections with
  | refl =>
    subst hc
    obtain ⟨f, rest, rec, page, hf, hrec, hpage⟩ := hload
    exact ⟨_, host, isZero, .refl, ⟨f, rest, rec, page, hf, (record_congr h.1 h.2 f).symm.trans hrec, hpage⟩, hin⟩
  | @head c c₁ hn _ ih =>
    subst hc
    have h' : Twins r q := ⟨h.1.symm, h.2.symm⟩
    obtain ⟨f, rest, rec, -, -, rfl, hnext⟩ := h'.next hn
    obtain ⟨hn', htwins⟩ := hnext hostPageSize
    obtain ⟨c'', host', isZero', hrun', hload'⟩ := ih (q := q.after pageSize n rec) ⟨htwins.1.symm, htwins.2.symm⟩ rfl
    exact ⟨c'', host', isZero', .head hn' hrun', hload'⟩

section
variable {c c₁ : Loading}

theorem Pending.next {f : List Nat} {rest : List (List Nat)} {rec : Record}
    (hp : Pending pageSize hostPageSize (r, f :: rest) a) (hn : Next pageSize hostPageSize (r, f :: rest) c₁)
    (hrec : r.record pageSize f = .ok rec) (h : NotNext pageSize rec a) : Pending pageSize hostPageSize c₁ a := by
  obtain ⟨c', host, isZero, hrun, hload, hin⟩ := hp
  cases hrun using ReflTransGen.head_induction_on with
  | refl =>
    obtain ⟨f', rest', rec', page, hf, hrec', hpage⟩ := hload
    obtain ⟨rfl, rfl⟩ := cons.inj hf
    obtain rfl := Except.ok.inj (hrec.symm.trans hrec')
    exact absurd hin (h host isZero page hpage)
  | head hn' hrun =>
    rw [hn.deterministic hn']
    exact ⟨c', host, isZero, hrun, hload, hin⟩

theorem keeps_next (hn : Next pageSize hostPageSize c c₁) :
    Keeps pageSize hostPageSize c ↔ Harmless pageSize hostPageSize c ∧ Keeps pageSize hostPageSize c₁ := by
  constructor
  · exact fun h => ⟨h c .refl, fun c' hrun => h c' (.head hn hrun)⟩
  · rintro ⟨hh, hk⟩ c' hrun
    cases hrun using ReflTransGen.head_induction_on with
    | refl => exact hh
    | head hn' hrun =>
      rw [← hn.deterministic hn'] at hrun
      exact hk c' hrun

theorem not_next_nil : ¬Next pageSize hostPageSize (r, []) c := by
  intro h
  obtain ⟨f, rest, rec, hf, -⟩ := next_iff.mp h
  cases hf

end

/-- The memories are the same wherever no record is going to load the byte. -/
def Agree (pageSize hostPageSize : Nat) (c : Loading) (q : Receiver) : Prop :=
  ∀ a, InRam c.1.blocks a → c.1.mem a = q.mem a ∨ Pending pageSize hostPageSize c a

section
variable {rest : List (List Nat)} {rec : Record} {c₁ : Loading} (hsize : 0 < pageSize)
  (hn : Next pageSize hostPageSize (r, f :: rest) (r.after pageSize hostPageSize rec, rec.left rest))
  (hrec : r.record pageSize f = .ok rec) (hagree : Agree pageSize hostPageSize (r, f :: rest) q)
include hsize hn hrec hagree

theorem Agree.next (hh : Harmless pageSize hostPageSize (r, f :: rest)) :
    Agree pageSize hostPageSize (r.after pageSize hostPageSize rec, rec.left rest) (q.after pageSize 1 rec) := by
  intro a ha
  by_cases hnot : NotNext pageSize rec a
  · -- the byte is not loaded by this record, and the other receiver keeps it
    have hq : (q.after pageSize 1 rec).mem a = q.mem a :=
      rec.mem_of_notNext q.mem hnot (.inr (discarded_of_dvd (one_dvd _) hsize))
    obtain heq | hp := hagree a ha
    · by_cases hz : r.mem a = 0
      · left
        rw [hq, ← heq]
        exact rec.mem_of_notNext r.mem hnot (.inl hz)
      cases hpage : rec.page with
      | none =>
        left
        rw [hq, ← heq]
        exact congrFun (rec.mem_none r.mem hpage) a
      | some p =>
        obtain ⟨host, isZero, page⟩ := p
        have hout := hnot host isZero page hpage
        by_cases hd : isZero = true ∧ host % hostPageSize = 0 ∧ host ≤ a ∧
            a < host + Receiver.discarded pageSize hostPageSize
        · obtain ⟨rfl, haligned, hlo, hhi⟩ := hd
          have hload : LoadsAt pageSize (r, f :: rest) host true := ⟨f, rest, rec, page, rfl, hrec, hpage⟩
          obtain hz' | hp := hh host hload haligned a ha (by omega) hhi
          · exact absurd hz' hz
          · exact .inr (hp.next hn hrec hnot)
        · left
          rw [hq, ← heq]
          show rec.mem pageSize hostPageSize r.mem a = r.mem a
          rw [rec.mem_some r.mem hpage, copied, if_neg hout]
          split
          next h => exact if_neg fun hin => hd ⟨h, hin⟩
          next => rfl
    · exact .inr (hp.next hn hrec hnot)
  · left
    simp only [NotNext, not_forall, not_not] at hnot
    obtain ⟨host, isZero, page, hpage, hin⟩ := hnot
    show rec.mem pageSize hostPageSize r.mem a = rec.mem pageSize 1 q.mem a
    rw [rec.mem_some r.mem hpage, rec.mem_some q.mem hpage, copied, if_pos hin, copied, if_pos hin]

/-- A byte that is lost stays lost. -/
theorem Agree.differ (htwins : Twins q r) (hh : ¬Harmless pageSize hostPageSize (r, f :: rest))
    (hrun : ReflTransGen (Next pageSize hostPageSize) (r.after pageSize hostPageSize rec, rec.left rest) (r', []))
    (hrun' : ReflTransGen (Next pageSize 1) (q.after pageSize 1 rec, rec.left rest) (q', [])) :
    ∃ a, InRam r.blocks a ∧ r'.mem a ≠ q'.mem a := by
  unfold Harmless at hh
  push Not at hh
  obtain ⟨host, ⟨f', rest', rec', page, hf, hrec', hpage⟩, haligned, a, ha, hlo, hhi, hne, hp⟩ := hh
  obtain ⟨rfl, rfl⟩ := cons.inj hf
  obtain rfl := Except.ok.inj (hrec.symm.trans hrec')
  have hp₁ := not_pending_next hn hp
  have hp' : ¬Pending pageSize 1 (q.after pageSize 1 rec, rec.left rest) a := by
    have htwins₁ : Twins (q.after pageSize 1 rec) (r.after pageSize hostPageSize rec) := ⟨htwins.1, rfl⟩
    exact fun h => hp₁ (htwins₁.pending h)
  have hnot := notNext_of_not_pending hp hrec
  have hlost : (r.after pageSize hostPageSize rec).mem a = 0 := by
    show rec.mem pageSize hostPageSize r.mem a = 0
    rw [rec.mem_some r.mem hpage, copied, if_neg (by omega)]
    exact if_pos ⟨haligned, by omega, hhi⟩
  have hone : Receiver.discarded pageSize 1 = pageSize := discarded_of_dvd (one_dvd _) hsize
  have hkept : (q.after pageSize 1 rec).mem a = q.mem a := rec.mem_of_notNext q.mem hnot (.inr hone)
  refine ⟨a, ha, ?_⟩
  rw [mem_of_not_pending hrun hp₁ (.inl hlost), mem_of_not_pending hrun' hp' (.inr hone)]
  show (r.after pageSize hostPageSize rec).mem a ≠ (q.after pageSize 1 rec).mem a
  rw [hlost, hkept, ← (hagree a ha).resolve_right hp]
  exact hne.symm

end

theorem keeps_iff_of_run {c : Loading} (hsize : 0 < pageSize)
    (hrun : ReflTransGen (Next pageSize hostPageSize) c (r', [])) : ∀ {q : Receiver}, Twins q c.1 →
      Agree pageSize hostPageSize c q → ReflTransGen (Next pageSize 1) (q, c.2) (q', []) →
      ((∀ a, InRam c.1.blocks a → r'.mem a = q'.mem a) ↔ Keeps pageSize hostPageSize c) := by
  induction hrun using ReflTransGen.head_induction_on with
  | refl =>
    intro q htwins hagree hrun'
    have hstop : ∀ {n : Nat} {r : Receiver} {c : Loading}, ReflTransGen (Next pageSize n) (r, []) c → c = (r, []) := by
      intro n r c h
      cases h using ReflTransGen.head_induction_on with
      | refl => rfl
      | head hn _ => exact absurd hn not_next_nil
    obtain rfl : q' = q := (Prod.mk.inj (hstop hrun')).1
    refine ⟨fun _ c' hc' => ?_, fun _ a ha => (hagree a ha).resolve_right ?_⟩
    · rw [hstop hc']
      rintro host ⟨f, rest, rec, page, hf, -⟩
      cases hf
    · rintro ⟨c', host, isZero, hc', ⟨f, rest, rec, page, hf, -⟩, -⟩
      rw [hstop hc'] at hf
      cases hf
  | @head c c₁ hn hrun ih =>
    intro q htwins hagree hrun'
    obtain ⟨r, sections⟩ := c
    obtain ⟨f, rest, rec, rfl, hrec, rfl, hnext⟩ := htwins.next hn
    obtain ⟨hn', htwins'⟩ := hnext 1
    have hrest : ReflTransGen (Next pageSize 1) (q.after pageSize 1 rec, rec.left rest) (q', []) := by
      cases hrun' using ReflTransGen.head_induction_on with
      | head hn₂ hrun₂ => rwa [← hn'.deterministic hn₂] at hrun₂
    rw [keeps_next hn]
    by_cases hh : Harmless pageSize hostPageSize (r, f :: rest)
    · rw [and_iff_right hh]
      exact ih htwins' (hagree.next hsize hn hrec hh) hrest
    · obtain ⟨a, ha, hne⟩ := hagree.differ hsize hn hrec htwins hh hrun hrest
      exact ⟨fun h => absurd (h a ha) hne, fun h => absurd h.1 hh⟩

/-- A host that discards nothing next to a page gives the same RAM exactly if every load is
harmless. -/
theorem keeps_iff (hsize : 0 < pageSize) (h : r.ramLoadAll pageSize hostPageSize sections = .ok r')
    (h' : r.ramLoadAll pageSize 1 sections = .ok q') :
    (∀ a, InRam r.blocks a → r'.mem a = q'.mem a) ↔ Keeps pageSize hostPageSize (r, sections) :=
  keeps_iff_of_run hsize (ramLoadAll_run sections h) ⟨rfl, rfl⟩ (fun _ _ => .inl rfl) (ramLoadAll_run sections h')

end GemDroid.Ram
