import GemDroid.Lib.Fallible
import GemDroid.Lib.Pieces
import GemDroid.Slirp.Reass

/-! The loops over a reassembly list.

A list is read as the pieces its fragments hold. Finding a place, trimming what lies behind
it and looking for a gap are then the operations on pieces, and the lists of other datagrams
do not change. -/
namespace GemDroid.Slirp.Reass
open Lib Function List Nat

variable {s : State} {t off stop fuel next i : Nat} {L : Links Node} {a b ms : List Nat} {m : Nat}

/-- The data a fragment brings, and where it belongs. -/
def piece (b : Mbuf) : Piece Nat := ⟨b.ipOff, b.data⟩

def pieces (s : State) (ms : List Nat) : List (Piece Nat) := ms.map fun m => piece (s.mbuf m)

@[simp] theorem pieces_nil : pieces s [] = [] := rfl

@[simp] theorem pieces_cons : pieces s (m :: ms) = piece (s.mbuf m) :: pieces s ms := rfl

@[simp] theorem pieces_append : pieces s (b ++ a) = pieces s b ++ pieces s a := by simp [pieces]

theorem mem_pieces (h : m ∈ ms) : piece (s.mbuf m) ∈ pieces s ms :=
  mem_map_of_mem (f := fun m => piece (s.mbuf m)) h

theorem pieces_congr {s' : State} (h : ∀ m ∈ ms, s'.mbuf m = s.mbuf m) : pieces s' ms = pieces s ms :=
  map_congr_left fun m hm => by rw [h m hm]

/-- What every fragment on a list keeps: its lengths agree, it lies in its buffer and can be
appended to another one, and the datagram's first fragment is where it came in. -/
structure Sound (b : Mbuf) : Prop where
  len : b.ipLen = b.data.length
  room : b.start + b.data.length ≤ b.size
  small : b.data.length ≤ mincsize
  within : b.ipOff + b.data.length < 65536
  first : b.ipOff = 0 → b.ext = false ∧ b.start = ipStart + 4 * b.ipHl

theorem Sound.piece_trim {b : Mbuf} (h : Sound b) (hi : i ≤ b.data.length) : piece (trim b i) = (piece b).skip i := by
  have := h.within
  simp only [piece, trim, mAdj, Piece.skip, Piece.mk.injEq, and_true]
  omega

theorem Sound.trim {b : Mbuf} (h : Sound b) (hi : i ≤ b.data.length) : Sound (trim b i) := by
  have hw := h.within
  have hr := h.room
  have hs := h.small
  have hoff : (b.ipOff + i) % 65536 = b.ipOff + i := mod_eq_of_lt (by omega)
  constructor
  · simp [Reass.trim, mAdj, h.len]
  · simp only [Reass.trim, mAdj, length_drop]
    omega
  · simp only [Reass.trim, mAdj, length_drop]
    omega
  · simp only [Reass.trim, mAdj, length_drop, hoff]
    omega
  · intro hz
    simp only [Reass.trim, mAdj, hoff] at hz ⊢
    obtain ⟨hext, hstart⟩ := h.first (by omega)
    exact ⟨hext, by omega⟩

/-- The first of the fragments `ms`, or the queue behind the last one. -/
def nodeAt (t : Nat) : List Nat → Node
  | [] => .ipq t
  | m :: _ => .frag m

theorem next_ipq (c : Circular L (.ipq t) (ms.map .frag)) : L.next (.ipq t) = nodeAt t ms := by
  rw [c.next_head]
  cases ms <;> rfl

theorem next_frag (c : Circular L (.ipq t) ((b ++ m :: a).map .frag)) : L.next (.frag m) = nodeAt t a := by
  rw [map_append, map_cons] at c
  rw [c.next_at]
  cases a <;> rfl

theorem prev_nodeAt (c : Circular L (.ipq t) ((b ++ a).map .frag)) :
    L.prev (nodeAt t a) = (Node.ipq t :: b.map .frag).getLast (by simp) := by
  rw [map_append] at c
  cases a with
  | nil =>
    rw [map_nil, append_nil] at c
    have hlast := List.getLast?_eq_some_getLast (l := Node.ipq t :: b.map Node.frag) (by simp)
    rw [List.getLast?_cons] at hlast
    rw [nodeAt, c.prev_head]
    exact Option.some.inj hlast
  | cons m a => exact c.prev_at

/-- The loop that finds a place stops at the first fragment behind the offset. -/
theorem findAfter_spec (off : Nat) (c : Circular s.links (.ipq t) ((b ++ a).map .frag)) (hf : a.length < fuel) :
    ∃ a₁ a₂, a = a₁ ++ a₂ ∧ findAfter s t off fuel (nodeAt t a) = .ok (nodeAt t a₂) ∧
      (∀ m ∈ a₁, (s.mbuf m).ipOff ≤ off) ∧ ∀ m ∈ a₂.head?, off < (s.mbuf m).ipOff := by
  induction a generalizing b fuel with
  | nil =>
    obtain ⟨fuel, rfl⟩ := exists_eq_add_one.2 hf
    exact ⟨[], [], rfl, by simp [findAfter, nodeAt], by simp, by simp⟩
  | cons m a ih =>
    obtain ⟨fuel, rfl⟩ := exists_eq_add_one.2 (zero_lt_of_lt hf)
    by_cases hm : (s.mbuf m).ipOff > off
    · exact ⟨[], m :: a, rfl, by simp [findAfter, nodeAt, hm], by simp, by simpa using hm⟩
    have c' : Circular s.links (.ipq t) (((b ++ [m]) ++ a).map .frag) := by
      simpa using c
    obtain ⟨a₁, a₂, ha, hfind, hle, hlt⟩ := ih c' (by simpa using hf)
    refine ⟨m :: a₁, a₂, by rw [ha]; rfl, ?_, ?_, hlt⟩
    · rw [nodeAt, findAfter, if_neg hm, next_frag c]
      exact hfind
    · intro x hx
      rcases mem_cons.1 hx with rfl | hx
      · omega
      · exact hle x hx

theorem overlap_spec (off : Nat) (c : Circular s.links (.ipq t) ((b ++ a).map .frag))
    (hb : ∀ m ∈ b, Sound (s.mbuf m)) : overlap s (nodeAt t a) off = lastStop (pieces s b) - off := by
  rw [overlap, prev_nodeAt c]
  rcases eq_nil_or_concat b with rfl | ⟨init, z, hl⟩
  · simp [lastStop]
  · rw [concat_eq_append] at hl
    subst hl
    have hz := (hb z (by simp)).len
    simp [lastStop, piece, Piece.stop, hz]

theorem checkLoop_spec (c : Circular s.links (.ipq t) ((b ++ a).map .frag))
    (ha : ∀ m ∈ a, Sound (s.mbuf m)) (hf : a.length < fuel) :
    checkLoop s t fuel (nodeAt t a) next = .ok (gapless next (pieces s a)) := by
  induction a generalizing b fuel next with
  | nil =>
    obtain ⟨fuel, rfl⟩ := exists_eq_add_one.2 hf
    simp [checkLoop, nodeAt, gapless]
  | cons m a ih =>
    obtain ⟨fuel, rfl⟩ := exists_eq_add_one.2 (zero_lt_of_lt hf)
    have c' : Circular s.links (.ipq t) (((b ++ [m]) ++ a).map .frag) := by
      simpa using c
    rw [nodeAt, checkLoop, pieces_cons, gapless, next_frag c,
      ih c' (fun x hx => ha x (by simp [hx])) (by simpa using hf), (ha m (by simp)).len]
    by_cases hm : (s.mbuf m).ipOff = next
    · simp [piece, hm]
    · simp [piece, hm]

def Trims (P : Mbuf → Prop) : Prop := ∀ b i, P b → i ≤ b.data.length → P (trim b i)

/-- The fragments `a` are cut down to `a'`, which lie behind `stop`. -/
structure Clipped (P : Mbuf → Prop) (t stop : Nat) (b a a' : List Nat) (s s' : State) : Prop where
  sub : a'.Sublist a
  circ : Circular s'.links (.ipq t) ((b ++ a').map .frag)
  clip : pieces s' a' = clip stop (pieces s a)
  each : ∀ m ∈ a', P (s'.mbuf m)
  same : ∀ m ∉ a, s'.mbuf m = s.mbuf m ∧ s'.used m = s.used m
  kept : ∀ m ∈ a', s'.used m = s.used m
  apart : s.links.Apart (.ipq t :: (b ++ a).map .frag) s'.links
  ipq : s'.ipq = s.ipq
  total : s'.total = s.total

section Clip
variable {P : Mbuf → Prop} {s' : State} {a' : List Nat}

theorem notMem_of_circular (c : Circular L (.ipq t) ((b ++ m :: a).map .frag)) : m ∉ b ∧ m ∉ a := by
  have hd : (b ++ m :: a).Nodup := List.Nodup.of_map _ (nodup_cons.1 c.nodup).2
  have := nodup_middle.1 hd
  simpa using (nodup_cons.1 this).1

theorem Clipped.keep (c : Circular s.links (.ipq t) ((b ++ m :: a).map .frag))
    (ha : ∀ x ∈ m :: a, P (s.mbuf x)) (hoff : stop ≤ (s.mbuf m).ipOff) :
    Clipped P t stop b (m :: a) (m :: a) s s where
  sub := .refl _
  circ := c
  clip := by
    have hm : ¬ (piece (s.mbuf m)).off < stop := not_lt.2 hoff
    rw [pieces_cons, Lib.clip, if_neg hm]
  each := ha
  same := fun _ _ => ⟨rfl, rfl⟩
  kept := fun _ _ => rfl
  apart := .refl _
  ipq := rfl
  total := rfl

theorem Clipped.cut (htrim : Trims P) (hsound : ∀ b, P b → Sound b)
    (c : Circular s.links (.ipq t) ((b ++ m :: a).map .frag)) (ha : ∀ x ∈ m :: a, P (s.mbuf x))
    (hoff : (s.mbuf m).ipOff < stop) (hi : stop - (s.mbuf m).ipOff < (s.mbuf m).ipLen) :
    Clipped P t stop b (m :: a) (m :: a) s (setMbuf s m (trim (s.mbuf m) (stop - (s.mbuf m).ipOff))) := by
  have hm := ha m (by simp)
  rw [(hsound _ hm).len] at hi
  have hma := (notMem_of_circular c).2
  have hother : ∀ x, x ≠ m → (setMbuf s m (trim (s.mbuf m) (stop - (s.mbuf m).ipOff))).mbuf x =
      s.mbuf x := fun x hx => update_of_ne hx _ _
  have hself : (setMbuf s m (trim (s.mbuf m) (stop - (s.mbuf m).ipOff))).mbuf m =
      trim (s.mbuf m) (stop - (s.mbuf m).ipOff) := update_self _ _ _
  refine ⟨.refl _, c, ?_, ?_, ?_, fun _ _ => rfl, .refl _, rfl, rfl⟩
  · have hrest := pieces_congr fun x (hx : x ∈ a) => hother x fun h => hma (h ▸ hx)
    have hlt : (piece (s.mbuf m)).off < stop := hoff
    have hlen : stop - (piece (s.mbuf m)).off < (piece (s.mbuf m)).data.length := hi
    rw [pieces_cons, pieces_cons, Lib.clip, if_pos hlt, if_pos hlen, hrest, hself, (hsound _ hm).piece_trim hi.le]
    rfl
  · intro x hx
    by_cases hxm : x = m
    · rw [hxm, hself]
      exact htrim _ _ hm hi.le
    · rw [hother x hxm]
      exact ha x hx
  · intro x hx
    exact ⟨hother x fun h => hx (by simp [h]), rfl⟩

theorem Clipped.deq (hsound : Sound (s.mbuf m))
    (c : Circular s.links (.ipq t) ((b ++ m :: a).map .frag)) (hoff : (s.mbuf m).ipOff < stop)
    (hi : ¬ stop - (s.mbuf m).ipOff < (s.mbuf m).ipLen) (h : Clipped P t stop b a a' (ipDeq (mFree s m) m) s') :
    Clipped P t stop b (m :: a) a' s s' := by
  rw [hsound.len] at hi
  have hma := (notMem_of_circular c).2
  refine ⟨h.sub.cons m, h.circ, ?_, h.each, ?_, ?_, ?_, h.ipq, h.total⟩
  · have hlt : (piece (s.mbuf m)).off < stop := hoff
    have hlen : ¬ stop - (piece (s.mbuf m)).off < (piece (s.mbuf m)).data.length := hi
    rw [h.clip, pieces_cons, Lib.clip, if_pos hlt, if_neg hlen]
    rfl
  · intro x hx
    obtain ⟨hmbuf, hused⟩ := h.same x fun hxa => hx (by simp [hxa])
    have hxm : x ≠ m := fun hxm => hx (by simp [hxm])
    exact ⟨hmbuf, hused.trans (update_of_ne hxm _ _)⟩
  · intro x hx
    have hxm : x ≠ m := fun hxm => hma (hxm ▸ h.sub.subset hx)
    exact (h.kept x hx).trans (update_of_ne hxm _ _)
  · have hrem : s.links.Apart (.ipq t :: (b ++ m :: a).map .frag) (s.links.remove (.frag m)) :=
      .remove c (by simp)
    refine hrem.trans (h.apart.mono ?_)
    intro x hx
    simp only [map_append, map_cons, mem_cons, mem_append] at hx ⊢
    tauto

/-- The loop that trims and dequeues. Each fragment it dequeues must have its links in memory
that stays. -/
theorem coverLoop_spec (stop : Nat) (htrim : Trims P) (hsound : ∀ b, P b → Sound b)
    (c : Circular s.links (.ipq t) ((b ++ a).map .frag)) (ha : ∀ m ∈ a, P (s.mbuf m))
    (hsafe : ∀ m ∈ a, (piece (s.mbuf m)).stop ≤ stop → (s.mbuf m).ext = false ∧ (s.mbuf m).doFree = false)
    (hf : a.length < fuel) :
    ∃ s' a', coverLoop t stop fuel s (nodeAt t a) = .ok (s', nodeAt t a') ∧ Clipped P t stop b a a' s s' := by
  induction a generalizing s fuel with
  | nil =>
    obtain ⟨fuel, rfl⟩ := exists_eq_add_one.2 hf
    refine ⟨s, [], by simp [coverLoop, nodeAt], ?_⟩
    exact ⟨.refl _, c, rfl, ha, fun _ _ => ⟨rfl, rfl⟩, fun _ _ => rfl, .refl _, rfl, rfl⟩
  | cons m a ih =>
    obtain ⟨fuel, rfl⟩ := exists_eq_add_one.2 (zero_lt_of_lt hf)
    have hm := hsound _ (ha m (by simp))
    by_cases hoff : stop > (s.mbuf m).ipOff
    · by_cases hi : stop - (s.mbuf m).ipOff < (s.mbuf m).ipLen
      · exact ⟨_, m :: a, by simp [nodeAt, coverLoop, hoff, hi], .cut htrim hsound c ha hoff hi⟩
      · have hstop : (piece (s.mbuf m)).stop ≤ stop := by
          have := hm.len
          simp only [piece, Piece.stop]
          omega
        obtain ⟨hext, hdo⟩ := hsafe m (by simp) hstop
        have c' : Circular (ipDeq (mFree s m) m).links (.ipq t) ((b ++ a).map .frag) := by
          rw [map_append, map_cons] at c
          rw [map_append]
          exact c.remove
        obtain ⟨s', a', hloop, hclip⟩ := ih (s := ipDeq (mFree s m) m) c'
          (fun x hx => ha x (by simp [hx])) (fun x hx => hsafe x (by simp [hx]))
          (lt_of_succ_lt_succ hf)
        refine ⟨s', a', ?_, .deq hm c hoff hi hclip⟩
        rw [← hloop, ← next_frag c]
        simp [nodeAt, coverLoop, hoff, hi, hext, hdo]
    · exact ⟨s, m :: a, by simp [nodeAt, coverLoop, hoff], .keep c ha (not_lt.1 hoff)⟩

end Clip

theorem mCat_spec {m n : Mbuf} (hroom : m.start + m.data.length ≤ m.size) (hsmall : n.data.length ≤ mincsize) :
    ∃ m', mCat m n = .ok m' ∧ m'.data = m.data ++ n.data ∧ m'.start = m.start ∧
      m'.ipHl = m.ipHl ∧ m'.start + m'.data.length ≤ m'.size := by
  by_cases hfree : freeRoom m < n.data.length
  · have hinc : mInc m (m.size + mincsize) = { m with ext := true, size := m.size + mincsize } := by
      rw [mInc, if_neg (by omega)]
    have hnew : ¬ freeRoom (mInc m (m.size + mincsize)) < n.data.length := by
      rw [hinc]
      simp only [freeRoom]
      omega
    rw [hinc] at hnew
    simp only [freeRoom] at hnew
    refine ⟨{ m with ext := true, size := m.size + mincsize, data := m.data ++ n.data }, ?_, rfl, rfl, rfl, ?_⟩
    · simp only [mCat, if_pos hfree, hinc]
      exact if_neg hnew
    · simp only [length_append]
      omega
  · refine ⟨{ m with data := m.data ++ n.data }, by simp [mCat, if_neg hfree], rfl, rfl, rfl, ?_⟩
    simp only [freeRoom] at hfree
    simp only [length_append]
    omega

/-- The loop that appends the fragments' data: every fragment is copied and freed. -/
theorem catLoop_spec {f : Mbuf} (c : Circular s.links (.ipq t) ((b ++ a).map .frag))
    (ha : ∀ m ∈ a, Sound (s.mbuf m)) (hroom : f.start + f.data.length ≤ f.size) (hf : a.length < fuel) :
    ∃ s' f', catLoop t fuel s (nodeAt t a) f = .ok (s', f') ∧
      f'.data = f.data ++ ((pieces s a).map Piece.data).flatten ∧ f'.start = f.start ∧
      f'.ipHl = f.ipHl ∧ (∀ x ∉ a, s'.used x = s.used x) ∧ s' = { s with used := s'.used } := by
  induction a generalizing s fuel b f with
  | nil =>
    obtain ⟨fuel, rfl⟩ := exists_eq_add_one.2 hf
    exact ⟨s, f, by simp [catLoop, nodeAt], by simp, rfl, rfl, fun _ _ => rfl, rfl⟩
  | cons n a ih =>
    obtain ⟨fuel, rfl⟩ := exists_eq_add_one.2 (zero_lt_of_lt hf)
    have hn := ha n (by simp)
    obtain ⟨g, hcat, hdata, hstart, hhl, hroom'⟩ := mCat_spec hroom hn.small
    have c' : Circular s.links (.ipq t) (((b ++ [n]) ++ a).map .frag) := by
      simpa using c
    obtain ⟨s', f', hloop, hdata', hstart', hhl', hused, hs'⟩ :=
      ih (s := mFree s n) c' (fun x hx => ha x (by simp [hx])) hroom' (lt_of_succ_lt_succ hf)
    refine ⟨s', f', ?_, ?_, hstart'.trans hstart, hhl'.trans hhl, ?_, hs'⟩
    · rw [← hloop, nodeAt, catLoop, hcat, next_frag c]
      rfl
    · have hp : pieces (mFree s n) a = pieces s a := rfl
      rw [hdata', hdata, hp, pieces_cons, map_cons, flatten_cons, append_assoc]
      rfl
    · intro x hx
      have hxn : x ≠ n := fun h => hx (by simp [h])
      exact (hused x fun h => hx (by simp [h])).trans (update_of_ne hxn _ _)

theorem freeLoop_spec (c : Circular s.links (.ipq t) (a.map .frag)) (hf : a.length < fuel) :
    ∃ s', freeLoop t fuel s (nodeAt t a) = .ok s' ∧ s'.mbuf = s.mbuf ∧ s'.ipq = s.ipq ∧
      s'.total = s.total ∧ (∀ x ∉ a, s'.used x = s.used x) ∧ s.links.Apart (.ipq t :: a.map .frag) s'.links := by
  induction a generalizing s fuel with
  | nil =>
    obtain ⟨fuel, rfl⟩ := exists_eq_add_one.2 hf
    exact ⟨s, by simp [freeLoop, nodeAt], rfl, rfl, rfl, fun _ _ => rfl, .refl _⟩
  | cons m a ih =>
    obtain ⟨fuel, rfl⟩ := exists_eq_add_one.2 (zero_lt_of_lt hf)
    have c' : Circular (mFree (ipDeq s m) m).links (.ipq t) (a.map .frag) := by
      rw [map_cons] at c
      exact c.remove_head
    obtain ⟨s', hloop, hmbuf, hipq, htotal, hused, hapart⟩ :=
      ih c' (lt_of_succ_lt_succ hf)
    refine ⟨s', ?_, hmbuf, hipq, htotal, ?_, ?_⟩
    · rw [← hloop, nodeAt, freeLoop, next_frag (b := []) c]
    · intro x hx
      have hxm : x ≠ m := fun h => hx (by simp [h])
      exact (hused x fun h => hx (by simp [h])).trans (update_of_ne hxm _ _)
    · have hrem : s.links.Apart (.ipq t :: (m :: a).map .frag) (s.links.remove (.frag m)) :=
        .remove c (by simp)
      refine hrem.trans (hapart.mono ?_)
      intro x hx
      simp only [map_cons, mem_cons] at hx ⊢
      tauto

end GemDroid.Slirp.Reass
