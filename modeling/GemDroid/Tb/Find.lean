import GemDroid.Lib.Reach
import GemDroid.Tb.Runs

/-! Looking up translation blocks (`cpu-exec.c`).

`tb_find_slow` searches the hash chain of a physical address, moves the block it finds to the head
of the chain and enters it into the jump cache. A block that is missing is generated, which is a
step of its own here, and then entered. -/
namespace GemDroid.Tb
open Lib.LinkPath Option
open Function (update)
attribute [local instance] neZero_two

/-- What a processor looks for. -/
structure Query where
  pc : Nat
  csBase : Nat
  flags : Nat
  mmu : Mmu

/-- A search gives a block or none, or a guest fault unwinds it to the main loop. -/
inductive Found
  | block (tb : TbId)
  | missing
  | unwound

section Lookup
variable (cfg : Config) (q : Query)

def Query.same (b : TranslationBlock) : Bool := b.pc == q.pc && b.csBase == q.csBase && b.flags == q.flags

def Query.physPage2 : Option Nat := getPageAddrCode cfg q.mmu (q.pc / cfg.pageSize * cfg.pageSize + cfg.pageSize)

/-- The search ends at a block that matches, or whose second page cannot be looked up. -/
def Query.ends (physPc : Nat) (b : TranslationBlock) : Bool :=
  q.same b && b.pageAddr0 == physPc / cfg.pageSize * cfg.pageSize &&
    (b.pageAddr1.isNone || (q.physPage2 cfg).isNone || b.pageAddr1 == q.physPage2 cfg)

def Query.search (s : State) (physPc : Nat) : Except WalkFault HashCell :=
  findCell (readHash s) .next (fun t => q.ends cfg physPc (s.tbs t)) (walkFuel s) (.head (tbPhysHashFunc physPc))

/-- Move the block in the cell `c` to the head of the list. -/
def moveFirst (s : State) (h : Nat) (c : HashCell) (tb : TbId) : State :=
  let s := writeHash s (readHash s (.next tb)) c
  let s := writeHash s (readHash s (.head h)) (.next tb)
  writeHash s (some tb) (.head h)

/-- The block is entered into the jump cache of a processor. -/
def enterTb (s : State) (cpu pc : Nat) (tb : TbId) : State :=
  let cache := update (s.tbJmpCache cpu) (tbJmpCacheHashFunc cfg pc) (some tb)
  { s with tbJmpCache := update s.tbJmpCache cpu cache }

def tbFindPhys (s : State) (cpu physPc : Nat) : Except Fault (Found × State) :=
  match q.search cfg s physPc with
  | .error .null => return (.missing, s)
  | .error .fuel => throw (.walk .fuel)
  | .ok c =>
    match readHash s c with
    | none => throw (.walk .null)
    | some tb =>
      if (s.tbs tb).pageAddr1.isSome && (q.physPage2 cfg).isNone then return (.unwound, s)
      else return (.block tb, enterTb cfg (moveFirst s (tbPhysHashFunc physPc) c tb) cpu q.pc tb)

/-- The search of `tb_find_slow`, which leaves it at `not_found` if the block is missing. -/
def tbFindSlowSearch (s : State) (cpu : Nat) : Except Fault (Found × State) :=
  let s := { s with tbInvalidatedFlag := false }
  match getPageAddrCode cfg q.mmu q.pc with
  | none => return (.unwound, s)
  | some physPc => tbFindPhys cfg q s cpu physPc

/-- The block is a translation of the code at `pc`, where the page table has it. -/
def Query.Matches (s : State) (tb : TbId) : Prop :=
  q.same (s.tbs tb) = true ∧
    (getPageAddrCode cfg q.mmu q.pc).map (· / cfg.pageSize * cfg.pageSize) = some (s.tbs tb).pageAddr0 ∧
    ((s.tbs tb).pageAddr1 = none ∨ (s.tbs tb).pageAddr1 = q.physPage2 cfg)

/-- What a search is to find, and to enter into the cache. -/
def Query.Finds (s s' : State) (cpu : Nat) : Found → Prop
  | .block tb => s.valid tb = true ∧ q.Matches cfg s tb ∧ s'.tbJmpCache = (enterTb cfg s cpu q.pc tb).tbJmpCache
  | .missing => (∀ t, s.valid t = true → ¬ q.Matches cfg s t) ∧ s'.tbJmpCache = s.tbJmpCache
  | .unwound => (getPageAddrCode cfg q.mmu q.pc = none ∨ q.physPage2 cfg = none) ∧ s'.tbJmpCache = s.tbJmpCache

end Lookup

variable {cfg : Config} {q : Query} {s s' : State} {tb : TbId} {cpu physPc : Nat}

section Search

@[simp] theorem tbJmpCache_writeHash (s : State) (v : Option TbId) (c : HashCell) :
    (writeHash s v c).tbJmpCache = s.tbJmpCache := by
  cases c <;> rfl

theorem hashStep_moveFirst (s : State) (h : Nat) (c : HashCell) (tb : TbId) : HashStep s (moveFirst s h c tb) := by
  constructor <;> simp [moveFirst]

theorem Inv.moveFirst {h : Nat} {c : HashCell} (I : Inv cfg s) (hon : hashOn cfg (frame s) tb = some h)
    (L : Lists hashShape (update (readHash s) c (readHash s (.next tb))) (fun _ => True)
      (update (hashOn cfg (frame s)) tb none)) : Inv cfg (moveFirst s h c tb) := by
  obtain ⟨hframe, hpage, hjmp, htarget⟩ := hashStep_moveFirst s h c tb
  obtain ⟨on, R⟩ := I.rings
  refine ⟨hframe ▸ I.wf, ?_, ?_, fun t ht hsame => ?_, on, R.congr hframe hjmp htarget⟩
  · have hpush := L.push (a := tb) (h := h) trivial (by simp) (by simp [hashShape]) (by simp [hashShape])
    rw [Function.update_idem, ← hon, Function.update_eq_self] at hpush
    rw [hframe]
    simp only [HashLists, Tb.moveFirst, readHash_writeHash]
    exact hpush
  · rw [hframe]
    unfold PageLists
    rw [hpage]
    exact I.page
  · rw [valid_of_frame hframe] at ht
    rw [info_of_frame hframe] at hsame
    rw [hpage]
    exact I.adjacent t ht hsame

variable (hphys : getPageAddrCode cfg q.mmu q.pc = some physPc)
include hphys

/-- A block at which the search may end is on the chain that is searched. -/
theorem hashOn_of_ends (ht : s.valid tb = true) (hends : q.ends cfg physPc (s.tbs tb) = true) :
    hashOn cfg (frame s) tb = some (tbPhysHashFunc physPc) := by
  simp only [Query.ends, Query.same, Bool.and_eq_true, beq_iff_eq] at hends
  have hmod : physPc % cfg.pageSize = q.pc % cfg.pageSize := by
    obtain ⟨page, -, rfl⟩ := map_eq_some_iff.mp hphys
    rw [Nat.mul_add_mod', Nat.mod_mod]
  simp [hashOn, frame, ht, hashIndex, info, hends.1, ← hmod, Nat.div_add_mod']

theorem tbFindPhys_spec (I : Inv cfg s) (cpu : Nat) :
    ∃ r s', tbFindPhys cfg q s cpu physPc = .ok (r, s') ∧ Inv cfg s' ∧ frame s' = frame s ∧ q.Finds cfg s s' cpu r := by
  have hfuel : ∀ l : List TbId, l.Nodup → (∀ t ∈ l, hashOn cfg (frame s) t = some (tbPhysHashFunc physPc)) →
      l.length < walkFuel s := by
    intro l hn hl
    have hlen : l.length ≤ s.nbTbs := length_le_of_lt hn fun t ht => hashOn_lt I.wf (by simp [hl t ht])
    unfold walkFuel
    omega
  unfold tbFindPhys
  by_cases hhit : ∃ t, q.ends cfg physPc (s.tbs t) = true ∧ hashOn cfg (frame s) t = some (tbPhysHashFunc physPc)
  · obtain ⟨tb, c, hends, hon, hfind, hread, L⟩ := I.hash.find_unlink trivial _ _ hhit hfuel
    have hsearch : q.search cfg s physPc = .ok c := hfind
    simp only [hsearch, hread]
    simp only [Query.ends, Bool.and_eq_true, beq_iff_eq, Bool.or_eq_true, isNone_iff_eq_none] at hends
    obtain ⟨⟨hsame, hpage⟩, hsecond⟩ := hends
    split
    next hunwound =>
      simp only [Bool.and_eq_true, isNone_iff_eq_none] at hunwound
      exact ⟨_, _, rfl, I, rfl, .inr hunwound.2, rfl⟩
    next hfound =>
      have I' := I.moveFirst hon L
      refine ⟨_, _, rfl, I'.congr I'.wf rfl (fun _ _ => rfl) rfl rfl rfl fun _ _ => rfl, (hashStep_moveFirst ..).frame,
        (ite_none_right_eq_some.mp hon).1, ⟨hsame, by rw [hphys, hpage]; rfl, ?_⟩, by simp [enterTb, moveFirst]⟩
      obtain (hone | hnone) | htwo := hsecond
      · exact .inl hone
      · simpa [hnone] using hfound
      · exact .inr htwo
  · obtain ⟨l, hpath, hl⟩ := I.hash.path (tbPhysHashFunc physPc) trivial
    have hsearch : q.search cfg s physPc = .error .null :=
      findCell_miss hpath (fun t ht => by simpa using fun hends => hhit ⟨t, hends, (hl t).mp ht⟩)
        (hfuel l (I.hash.nodup hpath hl) fun t ht => (hl t).mp ht)
    simp only [hsearch]
    refine ⟨_, _, rfl, I, rfl, fun t ht hmatches => ?_, rfl⟩
    obtain ⟨hsame, hpage, hsecond⟩ := hmatches
    rw [hphys, map_some, Option.some.injEq] at hpage
    have hends : q.ends cfg physPc (s.tbs t) = true := by
      simp only [Query.ends, hsame, ← hpage, Bool.and_eq_true, beq_iff_eq, Bool.or_eq_true, isNone_iff_eq_none]
      exact ⟨⟨trivial, trivial⟩, hsecond.imp .inl id⟩
    exact hhit ⟨t, hends, hashOn_of_ends hphys ht hends⟩

omit hphys in
theorem tbFindSlowSearch_spec (I : Inv cfg s) (q : Query) (cpu : Nat) :
    ∃ r s', tbFindSlowSearch cfg q s cpu = .ok (r, s') ∧ Inv cfg s' ∧ frame s' = frame s ∧ q.Finds cfg s s' cpu r := by
  have I' : Inv cfg { s with tbInvalidatedFlag := false } := I.congr I.wf rfl (fun _ _ => rfl) rfl rfl rfl fun _ _ => rfl
  unfold tbFindSlowSearch
  cases hphys : getPageAddrCode cfg q.mmu q.pc with
  | none => exact ⟨_, _, rfl, I', rfl, .inl hphys, rfl⟩
  | some physPc => exact tbFindPhys_spec hphys I' cpu

end Search

section Runs

/-- A step of a run: an operation, a search by a processor, or the entry of a block into the cache
of one, which ends a lookup whose block was missing and has been generated. -/
inductive Act (cfg : Config)
  | op (op : Op cfg)
  | search (q : Query) (cpu : Nat)
  | enter (cpu : Nat) (tb : TbId)

/-- The steps that are taken. Operations are called legally, and only valid blocks are entered. -/
def Acts (cfg : Config) (s : State) : Act cfg → State → Prop
  | .op op, s' => (op.Legal cfg s ∧ op.Separate cfg s) ∧ step cfg s op = .ok s'
  | .enter cpu tb, s' => s.valid tb = true ∧ s' = enterTb cfg s cpu (s.tbs tb).pc tb
  | .search q cpu, s' => ∃ r, tbFindSlowSearch cfg q s cpu = .ok (r, s')

theorem Inv.acts (I : Inv cfg s) {a : Act cfg} (h : Acts cfg s a s') : Inv cfg s' := by
  cases a with
  | op op =>
    obtain ⟨s₁, hok, I₁⟩ := I.step h.1.1 h.1.2
    cases h.2.symm.trans hok
    exact I₁
  | search q cpu =>
    obtain ⟨r, hr⟩ := h
    obtain ⟨_, s₁, hok, I₁, -⟩ := tbFindSlowSearch_spec I q cpu
    cases hr.symm.trans hok
    exact I₁
  | enter cpu tb =>
    obtain ⟨-, rfl⟩ := h
    exact I.congr I.wf rfl (fun _ _ => rfl) rfl rfl rfl fun _ _ => rfl

end Runs

end GemDroid.Tb
