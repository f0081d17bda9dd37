import GemDroid.Slirp.ReassList

/-! A fragment is put on a queue.

`ip_reass` places the fragment's data among the pieces it has. What was there and what has
come in is on the queue then, or in the packet that is returned. The packet is returned when
the pieces have no gap and the last one ends the datagram. -/
namespace GemDroid.Slirp.Reass
open Lib Function List

variable {s s' s'' : State} {t t' m n : Nat} {a b ms own own' : List Nat} {P : Mbuf → Prop}
  {ps : List (Piece Nat)} {x : Piece Nat} {queues : List Ipq}

structure Holds (P : Mbuf → Prop) (s : State) (t : Nat) (ms : List Nat) : Prop where
  circ : Circular s.links (.ipq t) (ms.map .frag)
  used : ∀ m ∈ ms, s.used m = true
  each : ∀ m ∈ ms, P (s.mbuf m)
  ordered : InOrder (pieces s ms)
  short : ms.length ≤ s.total

/-- A step that changes only the queue `t` and the fragments `own`. -/
structure Frame (t : Nat) (own : List Nat) (s s' : State) : Prop where
  mbuf : ∀ x ∉ own, s'.mbuf x = s.mbuf x
  used : ∀ x ∉ own, s'.used x = s.used x
  apart : s.links.Apart (.ipq t :: own.map .frag) s'.links
  total : s.total ≤ s'.total

theorem Frame.trans (h₁ : Frame t own s s') (h₂ : Frame t own s' s'') : Frame t own s s'' where
  mbuf := fun x hx => (h₂.mbuf x hx).trans (h₁.mbuf x hx)
  used := fun x hx => (h₂.used x hx).trans (h₁.used x hx)
  apart := h₁.apart.trans h₂.apart
  total := h₁.total.trans h₂.total

theorem Frame.mono (h : Frame t own s s') (hsub : own ⊆ own') : Frame t own' s s' where
  mbuf := fun x hx => h.mbuf x fun ho => hx (hsub ho)
  used := fun x hx => h.used x fun ho => hx (hsub ho)
  apart := h.apart.mono (cons_subset_cons _ (map_subset _ hsub))
  total := h.total

theorem Holds.frame (h : Holds P s t' ms) (hf : Frame t own s s') (ht : t' ≠ t)
    (hms : ∀ m ∈ ms, m ∉ own) : Holds P s' t' ms := by
  have hmbuf : ∀ m ∈ ms, s'.mbuf m = s.mbuf m := fun m hm => hf.mbuf m (hms m hm)
  refine ⟨hf.apart _ _ h.circ ?_, ?_, ?_, ?_, h.short.trans hf.total⟩
  · intro y hy
    rcases mem_cons.1 hy with rfl | hy
    · simp [ht]
    · obtain ⟨m, hm, rfl⟩ := mem_map.1 hy
      simpa using hms m hm
  · intro m hm
    rw [hf.used m (hms m hm)]
    exact h.used m hm
  · intro m hm
    rw [hmbuf m hm]
    exact h.each m hm
  · rw [pieces_congr hmbuf]
    exact h.ordered

/-- The end of the datagram, if the fragments make it up. -/
def finished (bs : List Mbuf) : Option Nat :=
  if bs.getLast?.map Mbuf.mf = some false then gapless 0 (bs.map piece) else none

theorem pieces_eq_map : pieces s ms = (ms.map s.mbuf).map piece := by simp [pieces]

def Adds (ps : List (Piece Nat)) (x : Piece Nat) (ps' : List (Piece Nat)) : Prop :=
  ∀ i, Covers ps' i ↔ Covers ps i ∨ (x.off ≤ i ∧ i < x.stop)

/-- What a fragment `x` leads to on a queue that held `ps`: it waits, or the datagram is
complete. -/
inductive Outcome (P : Mbuf → Prop) (t : Nat) (own : List Nat) (queues : List Ipq)
    (ps : List (Piece Nat)) (x : Piece Nat) (s' : State) : Option Packet → Prop
  | waits (ms : List Nat) (sub : ms ⊆ own) (holds : Holds P s' t ms) (ipq : s'.ipq = queues)
    (more : finished (ms.map s'.mbuf) = none) (adds : Adds ps x (pieces s' ms)) :
    Outcome P t own queues ps x s' none
  | done (bs : List Mbuf) (n : Nat) (ipq : s'.ipq = queues.filter fun q => q.t ≠ t)
    (each : ∀ b ∈ bs, P b) (all : finished bs = some n) (adds : Adds ps x (bs.map piece)) :
    Outcome P t own queues ps x s' (some ⟨ipStart, n % 65536, ((bs.map piece).map Piece.data).flatten⟩)

theorem complete_spec (c : Circular s.links (.ipq t) (ms.map .frag)) (hne : ms ≠ [])
    (hsound : ∀ m ∈ ms, Sound (s.mbuf m)) (hshort : ms.length ≤ s.total) (hgap : gapless 0 (pieces s ms) = some n) :
    ∃ s', complete s t n = .ok (s', some ⟨ipStart, n % 65536, ((pieces s ms).map Piece.data).flatten⟩) ∧
      s'.ipq = s.ipq.filter (fun q => q.t ≠ t) ∧ Frame t ms s s' := by
  obtain ⟨f, a, rfl⟩ := exists_cons_of_ne_nil hne
  have hf := hsound f (by simp)
  have hoff : (s.mbuf f).ipOff = 0 := by
    by_contra hoff
    have hpos : (piece (s.mbuf f)).off ≠ 0 := hoff
    rw [pieces_cons, gapless, if_pos hpos] at hgap
    cases hgap
  obtain ⟨hext, hstart⟩ := hf.first hoff
  have c' : Circular s.links (.ipq t) (([f] ++ a).map .frag) := c
  obtain ⟨s₁, g, hcat, hdata, hstart', hhl, hused, hs₁⟩ :=
    catLoop_spec c' (fun x hx => hsound x (by simp [hx])) hf.room
      (Nat.lt_succ_of_lt (Nat.lt_of_succ_le hshort))
  refine ⟨mFree { s₁ with ipq := s₁.ipq.filter fun q => q.t ≠ t } f, ?_, ?_, ?_⟩
  · rw [complete, next_ipq c, nodeAt]
    simp only [next_frag (b := []) c, hcat, ok_bind, hext, hstart', hstart, hhl, hdata]
    simp [piece]
  · rw [hs₁]
    rfl
  · rw [hs₁]
    refine ⟨fun _ _ => rfl, fun y hy => ?_, .refl _, le_rfl⟩
    have hyf : y ≠ f := fun h => hy (by simp [h])
    exact (update_of_ne hyf _ _).trans (hused y fun h => hy (by simp [h]))

theorem finished_map (hne : ms ≠ []) : finished (ms.map s.mbuf) =
      if (s.mbuf (ms.getLast hne)).mf then none else gapless 0 (pieces s ms) := by
  rw [finished, List.getLast?_map, List.getLast?_eq_some_getLast hne, ← pieces_eq_map]
  cases hmf : (s.mbuf (ms.getLast hne)).mf with
  | true => simp [hmf]
  | false => simp [hmf]

theorem checkComplete_outcome (hsound : ∀ b, P b → Sound b) (h : Holds P s t ms) (hne : ms ≠ [])
    (hsub : ms ⊆ own) (hadds : Adds ps x (pieces s ms)) :
    ∃ s' r, checkComplete s t = .ok (s', r) ∧ Frame t own s s' ∧ Outcome P t own s.ipq ps x s' r := by
  have hsnd : ∀ m ∈ ms, Sound (s.mbuf m) := fun m hm => hsound _ (h.each m hm)
  have hcheck : checkLoop s t (s.total + 1) (s.links.next (.ipq t)) 0 = .ok (gapless 0 (pieces s ms)) := by
    rw [next_ipq h.circ]
    exact checkLoop_spec (b := []) h.circ hsnd (Nat.lt_succ_of_le h.short)
  have hlast : s.links.prev (.ipq t) = .frag (ms.getLast hne) := by
    have hp := prev_nodeAt (a := []) (b := ms) (by simpa using h.circ)
    rw [nodeAt] at hp
    rw [hp, getLast_cons (by simpa using hne), getLast_map]
  have hfin := finished_map (s := s) hne
  have hwaits : finished (ms.map s.mbuf) = none → Frame t own s s ∧ Outcome P t own s.ipq ps x s none := fun hmore =>
    ⟨⟨fun _ _ => rfl, fun _ _ => rfl, .refl _, le_rfl⟩, .waits ms hsub h rfl hmore hadds⟩
  rw [checkComplete, hcheck, ok_bind, hlast]
  cases hgap : gapless 0 (pieces s ms) with
  | none => exact ⟨s, none, rfl, hwaits (by rw [hfin, hgap, ite_self])⟩
  | some n =>
    cases hmf : (s.mbuf (ms.getLast hne)).mf with
    | true => exact ⟨s, none, by simp [hmf], hwaits (by rw [hfin, hmf]; rfl)⟩
    | false =>
      obtain ⟨s', hcomplete, hipq, hframe⟩ := complete_spec h.circ hne hsnd h.short hgap
      refine ⟨s', _, by simp only [hmf]; exact hcomplete, hframe.mono hsub, ?_⟩
      rw [pieces_eq_map]
      refine .done _ n hipq ?_ (by rw [hfin, hmf, hgap]; rfl) (pieces_eq_map ▸ hadds)
      intro b hb
      obtain ⟨m, hm, rfl⟩ := mem_map.1 hb
      exact h.each m hm

theorem Holds.ipEnq (h : Holds P s t (b ++ a)) (hm : m ∉ b ++ a) (hused : s.used m = true)
    (hP : P (s.mbuf m)) (hord : InOrder (pieces s (b ++ m :: a))) :
    Holds P (ipEnq s m (s.links.prev (nodeAt t a))) t (b ++ m :: a) := by
  have hmem : ∀ y, y ∈ b ++ m :: a → y = m ∨ y ∈ b ++ a := by
    intro y
    simp only [mem_append, mem_cons]
    tauto
  refine ⟨?_, ?_, ?_, hord, ?_⟩
  · have hx : Node.frag m ∉ Node.ipq t :: (b.map Node.frag ++ a.map Node.frag) := by
      simpa using hm
    have c := h.circ
    rw [Reass.ipEnq, prev_nodeAt c, map_append, map_cons]
    rw [map_append] at c
    exact c.insert_between hx
  · intro y hy
    rcases hmem y hy with rfl | hy
    · exact hused
    · exact h.used y hy
  · intro y hy
    rcases hmem y hy with rfl | hy
    · exact hP
    · exact h.each y hy
  · have := h.short
    simp only [Reass.ipEnq, length_append, length_cons] at this ⊢
    omega

theorem frame_ipEnq (c : Circular s.links (.ipq t) ((b ++ a).map .frag)) :
    Frame t (m :: (b ++ a)) s (ipEnq s m (s.links.prev (nodeAt t a))) := by
  refine ⟨fun _ _ => rfl, fun _ _ => rfl, ?_, Nat.le_succ _⟩
  have hmem : s.links.prev (nodeAt t a) ∈ Node.ipq t :: (b ++ a).map .frag := by
    rw [prev_nodeAt c]
    have := getLast_mem (l := Node.ipq t :: b.map Node.frag) (by simp)
    simp only [map_append, mem_cons, mem_append] at this ⊢
    tauto
  refine (Links.Apart.insert c hmem).mono ?_
  intro y hy
  simp only [map_cons, mem_cons] at hy ⊢
  tauto

theorem insertFrag_outcome (hsound : ∀ b, P b → Sound b) (h : Holds P s t (b ++ a))
    (hm : m ∉ b ++ a) (hused : s.used m = true) (hP : P (s.mbuf m))
    (hord : InOrder (pieces s (b ++ m :: a))) (hadds : Adds ps x (pieces s (b ++ m :: a))) :
    ∃ s' r, insertFrag s m t (nodeAt t a) = .ok (s', r) ∧ Frame t (m :: (b ++ a)) s s' ∧
      Outcome P t (m :: (b ++ a)) s.ipq ps x s' r := by
  have hsub : b ++ m :: a ⊆ m :: (b ++ a) := by
    intro y
    simp only [mem_append, mem_cons]
    tauto
  obtain ⟨s', r, hcheck, hframe, hout⟩ :=
    checkComplete_outcome hsound (h.ipEnq hm hused hP hord) (by simp) hsub hadds
  exact ⟨s', r, hcheck, (frame_ipEnq h.circ).trans hframe, hout⟩

theorem Outcome.mono {r : Option Packet} (h : Outcome P t own queues ps x s r)
    (hsub : own ⊆ own') : Outcome P t own' queues ps x s r := by
  cases h with
  | waits ms sub holds ipq more adds =>
    exact .waits ms (fun y hy => hsub (sub hy)) holds ipq more adds
  | done bs n ipq each all adds => exact .done bs n ipq each all adds

theorem Holds.findAfter (h : Holds P s t ms) (off : Nat) : ∃ b a, ms = b ++ a ∧
      findAfter s t off (s.total + 1) (s.links.next (.ipq t)) = .ok (nodeAt t a) ∧
      (∀ m ∈ b, (s.mbuf m).ipOff ≤ off) ∧ ∀ m ∈ a, off < (s.mbuf m).ipOff := by
  obtain ⟨b, a, rfl, hfind, hb, ha⟩ :=
    findAfter_spec (b := []) off h.circ (Nat.lt_succ_of_le h.short)
  refine ⟨b, a, rfl, next_ipq h.circ ▸ hfind, hb, fun m hm => ?_⟩
  have hord := h.ordered
  rw [pieces_append] at hord
  have hord := (pairwise_append.1 hord).2.1
  cases a with
  | nil => cases hm
  | cons z a =>
    have hz : off < (piece (s.mbuf z)).off := ha z (by simp)
    exact InOrder.lt_off (q := piece (s.mbuf m)) hord hz (mem_pieces hm)

theorem Holds.setMbuf (h : Holds P s t ms) (hm : m ∉ ms) (c : Mbuf) : Holds P (setMbuf s m c) t ms := by
  have hsame : ∀ y ∈ ms, (Reass.setMbuf s m c).mbuf y = s.mbuf y := by
    intro y hy
    have hym : y ≠ m := fun h' => hm (h' ▸ hy)
    exact update_of_ne hym _ _
  refine ⟨h.circ, h.used, fun y hy => ?_, ?_, h.short⟩
  · rw [hsame y hy]
    exact h.each y hy
  · rw [pieces_congr hsame]
    exact h.ordered

theorem frame_setMbuf (c : Mbuf) (hm : m ∈ own) : Frame t own s (setMbuf s m c) :=
  ⟨fun y hy => update_of_ne (show y ≠ m from fun h => hy (h ▸ hm)) _ _, fun _ _ => rfl, .refl _, le_rfl⟩

theorem Clipped.frame {stop : Nat} {a' : List Nat} (h : Clipped P t stop b a a' s s') : Frame t (b ++ a) s s' :=
  ⟨fun y hy => (h.same y fun hya => hy (by simp [hya])).1,
    fun y hy => (h.same y fun hya => hy (by simp [hya])).2, h.apart, h.total.ge⟩

theorem drop_outcome (h : Holds P s t ms) (hm : m ∉ ms) (hmore : finished (ms.map s.mbuf) = none)
    (hadds : Adds (pieces s ms) x (pieces s ms)) :
    Frame t (m :: ms) s (mFree s m) ∧ Outcome P t (m :: ms) s.ipq (pieces s ms) x (mFree s m) none := by
  have hother : ∀ y, y ≠ m → (mFree s m).used y = s.used y :=
    fun y hy => update_of_ne hy _ _
  constructor
  · exact ⟨fun _ _ => rfl, fun y hy => hother y fun h => hy (by simp [h]), .refl _, le_rfl⟩
  · refine .waits ms (subset_cons_self _ _) ⟨h.circ, ?_, h.each, h.ordered, h.short⟩ rfl hmore hadds
    intro y hy
    rw [hother y fun h => hm (h ▸ hy)]
    exact h.used y hy

section
variable (htrim : Trims P) (hsound : ∀ b, P b → Sound b)
include htrim hsound

theorem place_outcome (h : Holds P s t (b ++ a)) (hm : m ∉ b ++ a) (hused : s.used m = true) {c : Mbuf} (hP : P c)
    (hplace : place (pieces s b) x (pieces s a) = some (pieces s b ++ piece c :: clip x.stop (pieces s a)))
    (hb : ∀ p ∈ pieces s b, p.off ≤ x.off) (ha : ∀ p ∈ pieces s a, x.off < p.off)
    (hsafe : ∀ y ∈ a, (piece (s.mbuf y)).stop ≤ x.stop → (s.mbuf y).ext = false ∧ (s.mbuf y).doFree = false) :
    ∃ s' r, (coverLoop t x.stop (s.total + 1) (setMbuf s m c) (nodeAt t a) >>=
        fun sq => insertFrag sq.1 m t sq.2) = .ok (s', r) ∧ Frame t (m :: (b ++ a)) s s' ∧
      Outcome P t (m :: (b ++ a)) s.ipq (pieces s (b ++ a)) x s' r := by
  have hmb : m ∉ b := fun hx => hm (by simp [hx])
  have hma : m ∉ a := fun hx => hm (by simp [hx])
  have hset := h.setMbuf hm c
  have hother : ∀ y, y ≠ m → (setMbuf s m c).mbuf y = s.mbuf y :=
    fun y hy => update_of_ne hy _ _
  have hlen : a.length < s.total + 1 := by
    have := h.short
    rw [length_append] at this
    omega
  obtain ⟨s₂, a', hloop, hclip⟩ := coverLoop_spec x.stop htrim hsound hset.circ
    (fun y hy => hset.each y (by simp [hy]))
    (fun y hy => by rw [hother y fun h => hma (h ▸ hy)]; exact hsafe y hy) hlen
  have hin : ∀ y ∈ b, y ∉ a := fun y hy hya =>
    (disjoint_of_nodup_append (List.Nodup.of_map _ (nodup_cons.1 h.circ.nodup).2)) hy hya
  have hpb : pieces s₂ b = pieces s b := by
    apply pieces_congr
    intro y hy
    rw [(hclip.same y (hin y hy)).1, hother y fun h => hmb (h ▸ hy)]
  have hself : s₂.mbuf m = c := (hclip.same m hma).1.trans (update_self _ _ _)
  have hpa : pieces (setMbuf s m c) a = pieces s a :=
    pieces_congr fun y hy => hother y fun h => hma (h ▸ hy)
  have hpieces : pieces s₂ (b ++ m :: a') = pieces s b ++ piece c :: clip x.stop (pieces s a) := by
    rw [pieces_append, pieces_cons, hpb, hself, hclip.clip, hpa]
  have hbefore := h.ordered
  rw [pieces_append] at hbefore
  have hord : InOrder (pieces s₂ (b ++ m :: a')) := hpieces ▸ place_inOrder hbefore hplace
  have hsub : b ++ a' ⊆ b ++ a :=
    ((List.Sublist.refl b).append hclip.sub).subset
  have hholds : Holds P s₂ t (b ++ a') := by
    refine ⟨hclip.circ, fun y hy => ?_, fun y hy => ?_, ?_, ?_⟩
    · have hsame : s₂.used y = s.used y := by
        rcases mem_append.1 hy with hy | hy
        · exact (hclip.same y (hin y hy)).2
        · exact hclip.kept y hy
      rw [hsame]
      exact h.used y (hsub hy)
    · rcases mem_append.1 hy with hy | hy
      · rw [(hclip.same y (hin y hy)).1]
        exact hset.each y (by simp [hy])
      · exact hclip.each y hy
    · refine List.Pairwise.sublist ?_ hord
      rw [pieces_append, pieces_append]
      exact (List.Sublist.refl _).append (sublist_cons_self _ _)
    · rw [hclip.total]
      exact ((List.Sublist.refl b).append hclip.sub).length_le.trans h.short
  have hadds : Adds (pieces s (b ++ a)) x (pieces s₂ (b ++ m :: a')) := by
    intro k
    rw [hpieces, pieces_append]
    exact covers_place hbefore hb ha hplace
  obtain ⟨s', r, hins, hframe, hout⟩ := insertFrag_outcome hsound hholds (fun hx => hm (hsub hx))
    ((hclip.same m hma).2.trans hused) (hself ▸ hP) hord hadds
  have hown : m :: (b ++ a') ⊆ m :: (b ++ a) := cons_subset_cons m hsub
  refine ⟨s', r, ?_, ?_, ?_⟩
  · rw [hloop, ok_bind]
    exact hins
  · have hfirst : Frame t (m :: (b ++ a)) s (setMbuf s m c) := frame_setMbuf c (by simp)
    exact (hfirst.trans (hclip.frame.mono (subset_cons_self _ _))).trans (hframe.mono hown)
  · have hipq : s₂.ipq = s.ipq := hclip.ipq
    exact hipq ▸ hout.mono hown

/-- A fragment of a datagram that has a queue. The fragments it covers must have their links
in memory that stays. -/
theorem ipReassQueued_outcome (h : Holds P s t ms) (hm : m ∉ ms) (hused : s.used m = true) (hP : P (s.mbuf m))
    (hmore : finished (ms.map s.mbuf) = none)
    (hsafe : ∀ y ∈ ms, (s.mbuf m).ipOff < (s.mbuf y).ipOff → (piece (s.mbuf y)).stop ≤ (piece (s.mbuf m)).stop →
      (s.mbuf y).ext = false ∧ (s.mbuf y).doFree = false) :
    ∃ s' r, ipReassQueued s m t = .ok (s', r) ∧ Frame t (m :: ms) s s' ∧
      Outcome P t (m :: ms) s.ipq (pieces s ms) (piece (s.mbuf m)) s' r := by
  obtain ⟨b, a, rfl, hfind, hb, ha⟩ := h.findAfter (s.mbuf m).ipOff
  have hover := overlap_spec (s.mbuf m).ipOff h.circ fun y hy => hsound _ (h.each y (by simp [hy]))
  have hpb : ∀ p ∈ pieces s b, p.off ≤ (piece (s.mbuf m)).off := by
    intro p hp
    obtain ⟨y, hy, rfl⟩ := mem_map.1 hp
    exact hb y hy
  have hpa : ∀ p ∈ pieces s a, (piece (s.mbuf m)).off < p.off := by
    intro p hp
    obtain ⟨y, hy, rfl⟩ := mem_map.1 hp
    exact ha y hy
  have hlen := (hsound _ hP).len
  generalize hi : lastStop (pieces s b) - (s.mbuf m).ipOff = i at hover
  have hi' : lastStop (pieces s b) - (piece (s.mbuf m)).off = i := hi
  rw [ipReassQueued]
  simp only [hfind, ok_bind, hover]
  by_cases hdrop : 0 < i ∧ (s.mbuf m).ipLen ≤ i
  · rw [if_pos hdrop]
    refine ⟨_, _, rfl, drop_outcome h hm hmore fun k => ?_⟩
    have hnone : place (pieces s b) (piece (s.mbuf m)) (pieces s a) = none := by
      simp only [place, hi']
      exact if_pos (hlen ▸ hdrop)
    rw [pieces_append]
    constructor
    · exact .inl
    · rintro (hk | ⟨hlo, hhi⟩)
      · exact hk
      · exact covers_of_place_none hpb hnone hlo hhi
  rw [if_neg hdrop]
  -- the data that the fragment before it has is cut off
  have hfit : i ≤ (s.mbuf m).data.length := by omega
  generalize hc : (if 0 < i then trim (s.mbuf m) i else s.mbuf m) = c
  have hpiece : piece c = (piece (s.mbuf m)).skip i := by
    subst hc
    split_ifs with hpos
    · exact (hsound _ hP).piece_trim hfit
    · have hzero : i = 0 := by omega
      rw [hzero, Piece.skip_zero]
  have hPc : P c := by
    subst hc
    split_ifs
    · exact htrim _ _ hP hfit
    · exact hP
  have hself : (setMbuf s m c).mbuf m = c := update_self _ _ _
  have hstop : c.ipOff + c.ipLen = (piece (s.mbuf m)).stop := by
    rw [(hsound _ hPc).len, ← Piece.stop_skip (piece (s.mbuf m)) hfit, ← hpiece]
    rfl
  have hplace : place (pieces s b) (piece (s.mbuf m)) (pieces s a) =
      some (pieces s b ++ piece c :: clip (piece (s.mbuf m)).stop (pieces s a)) := by
    simp only [place, hi', hpiece]
    exact if_neg (hlen ▸ hdrop)
  rw [hself, hstop]
  exact place_outcome htrim hsound h hm hused hPc hplace hpb hpa fun y hy => hsafe y (by simp [hy]) (ha y hy)

end

end GemDroid.Slirp.Reass
