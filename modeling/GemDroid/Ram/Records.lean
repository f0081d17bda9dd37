import GemDroid.Ram.Scan
import Mathlib.Algebra.BigOperators.Ring.List
import Mathlib.Data.List.TakeWhile

/-! What the receiver makes of a record.

A record of the sender is loaded as the page it was made of, whatever follows it in the stream.
The one exception is a zero page: it is given back to the host, which takes more than the page
where its own pages are larger. -/
namespace GemDroid.Ram
open Lib List Receiver Nat
open List hiding mem_of_getElem?

variable {pageSize i hostPageSize off : Nat} {r : Receiver} {blocks : List Block} {b : Block}
  {cont : Bool}

/-! ### The stream -/

theorem getBuffer_append (l f : List Nat) : getBuffer l.length (l ++ f) = .ok (l, f) := by
  simp [getBuffer]

theorem getBe64_putBe64 {v : Nat} (hv : v < 2 ^ 64) (f : List Nat) : getBe64 (putBe64 v ++ f) = .ok (v, f) := by
  have hbuf : getBuffer 8 (putBe64 v ++ f) = .ok (putBe64 v, f) := getBuffer_append (putBe64 v) f
  rw [getBe64, hbuf, ok_bind]
  have hfold : (putBe64 v).foldl (fun v b => 256 * v + b) 0 = v := by
    simp only [putBe64, foldl_cons, foldl_nil, reducePow]
    omega
  dsimp only
  rw [hfold]

theorem getName_putName {idstr : List Nat} (h : ∀ c ∈ idstr, c ≠ 0) (f : List Nat) :
    getName (putName idstr ++ f) = .ok (idstr, f) := by
  rw [getName, putName, cons_append, getByte, ok_bind]
  dsimp only
  rw [getBuffer_append, ok_bind]
  have hall : (idstr.takeWhile fun b => decide (b ≠ 0)) = idstr := by
    rw [takeWhile_eq_self_iff]
    intro c hc
    exact decide_eq_true (h c hc)
  rw [hall]

/-! ### Blocks by name -/

section Names

theorem Wf.find (hw : Wf pageSize blocks) (hb : b ∈ blocks) :
    (blocks.find? fun block => decide (block.idstr = b.idstr)) = some b := by
  cases hf : blocks.find? fun block => decide (block.idstr = b.idstr) with
  | none =>
    have := find?_eq_none.mp hf b hb
    simp at this
  | some c =>
    have hc : c.idstr = b.idstr := by simpa using find?_some hf
    rw [hw.eq_of_name (mem_of_find?_eq_some hf) hb hc]

theorem Wf.findIdx (hw : Wf pageSize blocks) (hb : blocks[i]? = some b) :
    (blocks.findIdx? fun block => decide (block.idstr = b.idstr)) = some i := by
  obtain ⟨hi, hbi⟩ := List.getElem?_eq_some_iff.mp hb
  rw [findIdx?_eq_some_iff_getElem]
  refine ⟨hi, by simp [hbi], ?_⟩
  intro j hj
  have hne : blocks[j].idstr ≠ b.idstr := by
    intro heq
    have hsame := hw.eq_of_name (getElem_mem _) (getElem_mem hi) (by rw [heq, hbi])
    have := (List.Nodup.getElem_inj_iff (List.Nodup.of_map _ hw.names)).mp hsame
    omega
  simpa using hne

end Names

/-! ### Loading -/

section Loads
variable {r' r'' : Receiver} {bytes more : List Nat}

/-- The loop of `ram_load` takes the bytes and goes on from the state they lead to. -/
def Loads (pageSize hostPageSize : Nat) (r : Receiver) (bytes : List Nat) (r' : Receiver) : Prop :=
  ∃ k ≤ bytes.length, ∀ fuel rest, Receiver.loadLoop pageSize hostPageSize (fuel + k) r (bytes ++ rest) =
    Receiver.loadLoop pageSize hostPageSize fuel r' rest

theorem Loads.refl (r : Receiver) : Loads pageSize hostPageSize r [] r := ⟨0, le_refl 0, fun _ _ => rfl⟩

theorem Loads.trans (h : Loads pageSize hostPageSize r bytes r') (h' : Loads pageSize hostPageSize r' more r'') :
    Loads pageSize hostPageSize r (bytes ++ more) r'' := by
  obtain ⟨k, hk, hrun⟩ := h
  obtain ⟨k', hk', hrun'⟩ := h'
  refine ⟨k' + k, ?_, ?_⟩
  · rw [length_append]
    omega
  · intro fuel rest
    rw [← add_assoc, append_assoc, hrun, hrun']

theorem Loads.of_record (hb : bytes ≠ [])
    (h : ∀ rest, r.loadRecord pageSize hostPageSize (bytes ++ rest) = .ok (r', rest, false)) :
    Loads pageSize hostPageSize r bytes r' := by
  refine ⟨1, length_pos_of_ne_nil hb, ?_⟩
  intro fuel rest
  rw [loadLoop, h, ok_bind]
  rfl

theorem flags_of {flags : Nat} (hd : pageSize ∣ off) (hf : flags < pageSize) :
    (off + flags) % pageSize = flags ∧ (off + flags) / pageSize * pageSize = off := by
  obtain ⟨k, rfl⟩ := hd
  rw [mul_add_mod, mod_eq_of_lt hf, mul_add_div (by omega), div_eq_of_lt hf, add_zero, mul_comm]
  exact ⟨rfl, rfl⟩

theorem Loads.ramLoad (h : Loads pageSize hostPageSize r bytes r') (hsize : 64 ≤ pageSize) :
    r.ramLoad pageSize hostPageSize (bytes ++ putBe64 flagEos) = .ok (r', []) := by
  obtain ⟨k, hk, hrun⟩ := h
  have hlen : (bytes ++ putBe64 flagEos).length + 1 = (bytes.length + 8 - k) + 1 + k := by
    rw [length_append, show (putBe64 flagEos).length = 8 from rfl]
    omega
  obtain ⟨hmod, -⟩ := flags_of (dvd_zero pageSize) (show flagEos < pageSize by unfold flagEos; omega)
  rw [zero_add] at hmod
  have hget := getBe64_putBe64 (show flagEos < 2 ^ 64 by decide) []
  rw [append_nil] at hget
  have hrec : r'.loadRecord pageSize hostPageSize (putBe64 flagEos) = .ok (r', [], true) := by
    rw [loadRecord, hget, ok_bind]
    dsimp only
    rw [hmod]
    rfl
  rw [Receiver.ramLoad, hlen, hrun, Receiver.loadLoop, hrec, ok_bind]
  rfl

end Loads

/-! ### The blocks that are announced -/

section Header

theorem checkBlocks_header (hr : Wf pageSize r.blocks) (hsum : (blocks.map Block.length).sum < 2 ^ 64)
    (hsame : ∀ b ∈ blocks, 0 < b.length ∧ ∃ b' ∈ r.blocks, b'.idstr = b.idstr ∧ b'.length = b.length) :
    ∀ (fuel : Nat) (rest : List Nat), blocks.length < fuel → r.checkBlocks fuel (blocks.map Block.length).sum
        ((blocks.flatMap fun block => putName block.idstr ++ putBe64 block.length) ++ rest) = .ok rest := by
  induction blocks with
  | nil =>
    intro fuel rest hfuel
    obtain ⟨n, rfl⟩ : ∃ n, fuel = n + 1 := ⟨fuel - 1, by omega⟩
    rfl
  | cons b blocks ih =>
    intro fuel rest hfuel
    obtain ⟨n, rfl⟩ : ∃ n, fuel = n + 1 := ⟨fuel - 1, by omega⟩
    obtain ⟨hpos, b', hb', hname, hlen⟩ := hsame b (by simp)
    rw [map_cons, sum_cons] at hsum ⊢
    have hfind := hr.find hb'
    rw [hname] at hfind
    rw [checkBlocks, if_neg (by omega), flatMap_cons]
    simp only [append_assoc]
    rw [getName_putName (by rw [← hname]; exact (hr.name b' hb').2), ok_bind]
    rw [getBe64_putBe64 (by omega), ok_bind]
    dsimp only
    rw [hfind]
    dsimp only
    rw [if_neg (by simp [hlen]),
      show (b.length + (blocks.map Block.length).sum + 2 ^ 64 - b.length) % 2 ^ 64 = (blocks.map Block.length).sum by
        rw [show b.length + (blocks.map Block.length).sum + 2 ^ 64 - b.length =
          (blocks.map Block.length).sum + 2 ^ 64 by omega, add_mod_right, mod_eq_of_lt (by omega)]]
    apply ih (by omega) (forall_mem_cons.1 hsame).2
    rw [length_cons] at hfuel
    omega

theorem length_le_flatMap (blocks : List Block) :
    blocks.length ≤ (blocks.flatMap fun block => putName block.idstr ++ putBe64 block.length).length := by
  induction blocks with
  | nil => exact le_refl 0
  | cons b blocks ih =>
    rw [flatMap_cons, length_append, length_cons, length_append, putName, length_cons]
    omega

theorem loads_header (hr : Wf pageSize r.blocks) (hsize : 64 ≤ pageSize) {s : Sender} (hw : Wf pageSize s.blocks)
    (hsame : ∀ b ∈ s.blocks, ∃ b' ∈ r.blocks, b'.idstr = b.idstr ∧ b'.length = b.length) :
    Loads pageSize hostPageSize r (putBe64 (s.ramBytesTotal + flagMemSize) ++
      s.blocks.flatMap fun block => putName block.idstr ++ putBe64 block.length) r := by
  have htotal : s.ramBytesTotal = (s.blocks.map Block.length).sum := rfl
  have hbound := hw.total
  have hdvd : pageSize ∣ s.ramBytesTotal := by
    apply dvd_sum
    intro n hn
    obtain ⟨b, hb, rfl⟩ := mem_map.mp hn
    exact (hw.length b hb).1
  obtain ⟨hmod, hdiv⟩ := flags_of hdvd (show flagMemSize < pageSize by unfold flagMemSize; omega)
  apply Loads.of_record
  · simp [putBe64]
  · intro rest
    rw [loadRecord, append_assoc, getBe64_putBe64 (by rw [htotal, flagMemSize]; omega), ok_bind]
    dsimp only
    rw [hmod, hdiv, if_pos (by decide), htotal, checkBlocks_header hr (by omega), ok_bind]
    · rfl
    · intro b hb
      exact ⟨(hw.length b hb).2, hsame b hb⟩
    · have := length_le_flatMap s.blocks
      rw [length_append]
      omega

end Header

/-! ### Pages -/

section Pages
variable {b' : Block}

def copied (pageSize : Nat) (mem : Nat → Nat) (host : Nat) (page : Nat → Nat) : Nat → Nat :=
  fun a => if host ≤ a ∧ a < host + pageSize then page (a - host) else mem a

theorem madvise_fields (pageSize hostPageSize : Nat) (r : Receiver) (host : Nat) :
    (r.madvise pageSize hostPageSize host).blocks = r.blocks ∧
    (r.madvise pageSize hostPageSize host).block = r.block := by
  unfold madvise
  split
  · exact ⟨rfl, rfl⟩
  · exact ⟨rfl, rfl⟩

/-- Where a page is made of whole pages of the host, nothing next to it is discarded. -/
theorem discarded_of_dvd (hdvd : hostPageSize ∣ pageSize) (hsize : 0 < pageSize) :
    discarded pageSize hostPageSize = pageSize := by
  obtain ⟨k, rfl⟩ := hdvd
  have hpos : 0 < hostPageSize := Nat.pos_of_mul_pos_right hsize
  unfold discarded
  rw [Nat.add_sub_assoc hpos, Nat.mul_add_div hpos, Nat.div_eq_of_lt (by omega), add_zero, mul_comm]

theorem memset_madvise (hdvd : hostPageSize ∣ pageSize) (hsize : 0 < pageSize) (r : Receiver) (host : Nat) :
    ((r.memset pageSize host 0).madvise pageSize hostPageSize host).mem = (r.memset pageSize host 0).mem := by
  unfold madvise
  split
  · funext a
    dsimp only
    rw [discarded_of_dvd hdvd hsize]
    split
    next hin => exact (if_pos hin).symm
    next => rfl
  · rfl

theorem eq_of_isDupPage {page : Nat → Nat} {ch : Nat} (h4 : 4 ∣ pageSize) (h : isDupPage pageSize page ch = true)
    {k : Nat} (hk : k < pageSize) : page k = ch := by
  have hword := all_eq_true.mp h (k / 4) (mem_range.mpr (by omega))
  have hbyte := of_decide_eq_true (all_eq_true.mp hword (k % 4) (mem_range.mpr (by omega)))
  rwa [div_add_mod] at hbyte

theorem hostFromStreamOffset_spec (hr : Wf pageSize r.blocks) (hb' : r.blocks[i]? = some b')
    (hcont : cont = true → r.block = some i) (rest : List Nat) :
    r.hostFromStreamOffset off cont ((if cont then [] else putName b'.idstr) ++ rest) =
      .ok ({ r with block := some i }, some (b'.host + off), rest) := by
  cases cont with
  | true =>
    have hblock := hcont rfl
    have hsame : { r with block := some i } = r := by rw [← hblock]
    rw [hsame]
    simp [hostFromStreamOffset, hblock, hb']
  | false =>
    rw [hostFromStreamOffset, if_neg (by simp), if_neg (by simp),
      getName_putName (hr.name b' (List.mem_of_getElem? hb')).2, ok_bind]
    dsimp only
    rw [hr.findIdx hb']
    simp [hb']

/-- The first word of a record of a page: the offset, and below it the flags. -/
theorem getBe64_record {flag : Nat} (cont : Bool) (hflag : flag = flagCompress ∨ flag = flagPage) (hsize : 64 ≤ pageSize)
    (hoff : off + 64 ≤ 2 ^ 64) (hd : pageSize ∣ off) (rest : List Nat) :
    ∃ addr, getBe64 (putBe64 (off + (if cont then flagContinue else 0) + flag) ++ rest) = .ok (addr, rest) ∧
      addr % pageSize = (if cont then flagContinue else 0) + flag ∧ addr / pageSize * pageSize = off ∧
      decide (((if cont then flagContinue else 0) + flag) / flagContinue % 2 = 1) = cont ∧
      decide (((if cont then flagContinue else 0) + flag) / flagEos % 2 = 1) = false := by
  have hflags : (if cont then flagContinue else 0) + flag < 64 := by
    rcases hflag with rfl | rfl <;> cases cont <;> decide
  obtain ⟨hmod, hdiv⟩ := flags_of hd (lt_of_lt_of_le hflags hsize)
  refine ⟨_, getBe64_putBe64 (by omega) rest, ?_, ?_, ?_, ?_⟩
  · rw [add_assoc, hmod]
  · rw [add_assoc, hdiv]
  all_goals rcases hflag with rfl | rfl <;> cases cont <;> decide

section
variable (hr : Wf pageSize r.blocks) (hb' : r.blocks[i]? = some b')
  (hcont : cont = true → r.block = some i) (hsize : 64 ≤ pageSize)
include hr hb' hcont hsize

theorem loadRecord_compress (hoff : off + 64 ≤ 2 ^ 64) (hd : pageSize ∣ off) (ch : Nat) (rest : List Nat) :
    r.loadRecord pageSize hostPageSize (putBe64 (off + (if cont then flagContinue else 0) + flagCompress) ++
        (if cont then [] else putName b'.idstr) ++ [ch] ++ rest) = .ok (if ch = 0 then
          (({ r with block := some i } : Receiver).memset pageSize (b'.host + off) ch).madvise pageSize hostPageSize
            (b'.host + off)
        else ({ r with block := some i } : Receiver).memset pageSize (b'.host + off) ch, rest, false) := by
  rw [append_assoc, append_assoc]
  obtain ⟨addr, hget, hmod, hdiv, hc, he⟩ := getBe64_record cont (.inl rfl) hsize hoff hd
    ((if cont then [] else putName b'.idstr) ++ ([ch] ++ rest))
  rw [loadRecord, hget, ok_bind]
  dsimp only
  rw [hmod, hdiv, if_neg (by cases cont <;> decide), if_pos (by cases cont <;> decide), hc, he,
    hostFromStreamOffset_spec hr hb' hcont, ok_bind]
  rfl

theorem loadRecord_page (hoff : off + 64 ≤ 2 ^ 64) (hd : pageSize ∣ off) (page : Nat → Nat) (rest : List Nat) :
    r.loadRecord pageSize hostPageSize (putBe64 (off + (if cont then flagContinue else 0) + flagPage) ++
        (if cont then [] else putName b'.idstr) ++ (range pageSize).map page ++ rest) =
      .ok ({ r with block := some i, mem := copied pageSize r.mem (b'.host + off) page }, rest, false) := by
  have hbuf := getBuffer_append ((range pageSize).map page) rest
  rw [length_map, length_range] at hbuf
  rw [append_assoc, append_assoc]
  obtain ⟨addr, hget, hmod, hdiv, hc, he⟩ := getBe64_record cont (.inr rfl) hsize hoff hd
    ((if cont then [] else putName b'.idstr) ++ ((range pageSize).map page ++ rest))
  rw [loadRecord, hget, ok_bind]
  dsimp only
  rw [hmod, hdiv, if_neg (by cases cont <;> decide), if_neg (by cases cont <;> decide),
    if_pos (by cases cont <;> decide), hc, he, hostFromStreamOffset_spec hr hb' hcont, ok_bind]
  dsimp only
  rw [hbuf, ok_bind]
  have hmem : (fun a => if b'.host + off ≤ a ∧ a < b'.host + off + pageSize then
      ((range pageSize).map page).getD (a - (b'.host + off)) 0 else r.mem a) =
      copied pageSize r.mem (b'.host + off) page := by
    funext a
    unfold copied
    split
    next hin =>
      rw [getD_eq_getElem?_getD, getElem?_map, getElem?_range (by omega)]
      rfl
    next => rfl
  rw [hmem]

theorem loads_pageRecord (h4 : 4 ∣ pageSize) (hoff : off + 64 ≤ 2 ^ 64)
    (hd : pageSize ∣ off) (s : Sender) (hname : b'.idstr = b.idstr) :
    ∃ r', Loads pageSize hostPageSize r (s.pageRecord pageSize b cont off).1 r' ∧ r'.blocks = r.blocks ∧
      r'.block = some i ∧ (hostPageSize ∣ pageSize →
        r'.mem = copied pageSize r.mem (b'.host + off) fun k => s.mem (b.host + off + k)) := by
  unfold Sender.pageRecord
  dsimp only
  rw [← hname]
  split
  next hdup =>
    have hmem : (({ r with block := some i } : Receiver).memset pageSize (b'.host + off)
        (s.mem (b.host + off + 0))).mem = copied pageSize r.mem (b'.host + off) fun k => s.mem (b.host + off + k) := by
      funext a
      unfold memset copied
      dsimp only
      split
      next hin => exact (eq_of_isDupPage h4 hdup (by omega)).symm
      next => rfl
    refine ⟨_, Loads.of_record (by simp [putBe64]) (loadRecord_compress hr hb' hcont hsize hoff hd _), ?_⟩
    split
    next hzero =>
      obtain ⟨hblocks, hblock⟩ := madvise_fields pageSize hostPageSize
        (({ r with block := some i } : Receiver).memset pageSize (b'.host + off) (s.mem (b.host + off + 0)))
        (b'.host + off)
      refine ⟨hblocks, hblock, fun hdvd => ?_⟩
      rw [hzero] at hmem ⊢
      exact (memset_madvise hdvd (by omega) _ _).trans hmem
    next => exact ⟨rfl, rfl, fun _ => hmem⟩
  next =>
    exact ⟨_, Loads.of_record (by simp [putBe64]) (loadRecord_page hr hb' hcont hsize hoff hd _), rfl, rfl,
      fun _ => rfl⟩

end

end Pages

end GemDroid.Ram
