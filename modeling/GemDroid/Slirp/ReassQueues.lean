import GemDroid.Slirp.ReassQueue

/-! The queues of many datagrams.

The queues have nothing in common, so a packet changes only its own datagram's queue. -/
namespace GemDroid.Slirp.Reass
open Lib Function List Nat

variable {ip : Ip}

variable {s s' : State} {t m : Nat} {ms own : List Nat} {P : Key → Mbuf → Prop} {q : Ipq}
  {x : Piece Nat} {k : Key}

def walk (s : State) : Nat → Node → List Nat
  | 0, _ => []
  | _ + 1, .ipq _ => []
  | fuel + 1, .frag m => m :: walk s fuel (s.links.next (.frag m))

def fragments (s : State) (t : Nat) : List Nat := walk s (s.total + 1) (s.links.next (.ipq t))

/-- The fragments that wait for the rest of a datagram. -/
def queued (s : State) (k : Key) : List Nat :=
  match s.ipq.find? fun q => q.key = k with
  | none => []
  | some q => fragments s q.t

theorem walk_eq {a b : List Nat} {fuel : Nat} (c : Circular s.links (.ipq t) ((b ++ a).map .frag))
    (hf : a.length < fuel) : walk s fuel (nodeAt t a) = a := by
  induction a generalizing b fuel with
  | nil =>
    obtain ⟨fuel, rfl⟩ := exists_eq_add_one.2 hf
    rfl
  | cons m a ih =>
    obtain ⟨fuel, rfl⟩ := exists_eq_add_one.2 (zero_lt_of_lt hf)
    rw [nodeAt, walk, next_frag c, ih (b := b ++ [m]) (by simpa using c) (by simpa using hf)]

theorem Holds.fragments_eq {P : Mbuf → Prop} (h : Holds P s t ms) : fragments s t = ms := by
  rw [fragments, next_ipq h.circ]
  exact walk_eq (b := []) h.circ (lt_succ_of_le h.short)

/-- The queues are in order, no datagram has two, and none is complete. -/
structure Wf (P : Key → Mbuf → Prop) (s : State) : Prop where
  ts : s.ipq.Pairwise fun q q' => q.t ≠ q'.t
  keys : s.ipq.Pairwise fun q q' => q.key ≠ q'.key
  holds : ∀ q ∈ s.ipq, Holds (P q.key) s q.t (fragments s q.t)
  more : ∀ q ∈ s.ipq, finished ((fragments s q.t).map s.mbuf) = none
  apart : ∀ q ∈ s.ipq, ∀ q' ∈ s.ipq, q.t ≠ q'.t → ∀ m ∈ fragments s q.t, m ∉ fragments s q'.t

theorem find?_of_mem {l : List Ipq} (h : l.Pairwise fun q q' => q.key ≠ q'.key) (hq : q ∈ l) :
    (l.find? fun q' => q'.key = q.key) = some q := by
  induction l with
  | nil => cases hq
  | cons z l ih =>
    obtain ⟨hz, hl⟩ := pairwise_cons.1 h
    rcases mem_cons.1 hq with rfl | hq
    · simp
    · rw [find?_cons_of_neg (by simpa using hz q hq)]
      exact ih hl hq

theorem Wf.queued_of_mem (h : Wf P s) (hq : q ∈ s.ipq) : queued s q.key = fragments s q.t := by
  rw [queued, find?_of_mem h.keys hq]

theorem queued_of_none (h : ∀ q ∈ s.ipq, q.key ≠ k) : queued s k = [] := by
  have : (s.ipq.find? fun q => q.key = k) = none := by simpa using h
  rw [queued, this]

theorem Wf.eq_of_t (h : Wf P s) {q' : Ipq} (hq : q ∈ s.ipq) (hq' : q' ∈ s.ipq) (ht : q.t = q'.t) : q = q' := by
  have : Std.Symm fun q q' : Ipq => q.t ≠ q'.t := ⟨fun _ _ h => h.symm⟩
  by_contra hne
  exact List.Pairwise.forall h.ts hq hq' hne ht

section Step
variable (h : Wf P s) (hf : Frame t own s s')
  (hoff : ∀ q ∈ s.ipq, q.t ≠ t → ∀ m ∈ fragments s q.t, m ∉ own)
include h hf hoff

theorem Wf.other (hq : q ∈ s.ipq) (ht : q.t ≠ t) :
    Holds (P q.key) s' q.t (fragments s q.t) ∧ fragments s' q.t = fragments s q.t ∧
      ∀ m ∈ fragments s q.t, s'.mbuf m = s.mbuf m := by
  have hh := (h.holds q hq).frame hf ht (hoff q hq ht)
  exact ⟨hh, hh.fragments_eq, fun m hm => hf.mbuf m (hoff q hq ht m hm)⟩

theorem Wf.step (hts : s'.ipq.Pairwise fun q q' => q.t ≠ q'.t) (hkeys : s'.ipq.Pairwise fun q q' => q.key ≠ q'.key)
    (hipq : ∀ q ∈ s'.ipq, q.t ≠ t → q ∈ s.ipq)
    (hself : ∀ q ∈ s'.ipq, q.t = t → Holds (P q.key) s' t (fragments s' t) ∧
      fragments s' t ⊆ own ∧ finished ((fragments s' t).map s'.mbuf) = none) : Wf P s' := by
  have hmem : ∀ q ∈ s'.ipq, q.t ≠ t → ∀ m ∈ fragments s' q.t, m ∉ own := by
    intro q hq ht m hm
    obtain ⟨-, heq, -⟩ := h.other hf hoff (hipq q hq ht) ht
    exact hoff q (hipq q hq ht) ht m (heq ▸ hm)
  refine ⟨hts, hkeys, fun q hq => ?_, fun q hq => ?_, fun q hq q' hq' hne m hm hm' => ?_⟩
  · by_cases ht : q.t = t
    · exact ht ▸ (hself q hq ht).1
    · obtain ⟨hh, heq, -⟩ := h.other hf hoff (hipq q hq ht) ht
      exact heq ▸ hh
  · by_cases ht : q.t = t
    · exact ht ▸ (hself q hq ht).2.2
    · obtain ⟨-, heq, hmbuf⟩ := h.other hf hoff (hipq q hq ht) ht
      rw [heq, map_congr_left hmbuf]
      exact h.more q (hipq q hq ht)
  · by_cases ht : q.t = t
    · have hown := (hself q hq ht).2.1 (ht ▸ hm)
      exact hmem q' hq' (fun ht' => hne (ht.trans ht'.symm)) m hm' hown
    · by_cases ht' : q'.t = t
      · exact hmem q hq ht m hm ((hself q' hq' ht').2.1 (ht' ▸ hm'))
      · obtain ⟨-, heq, -⟩ := h.other hf hoff (hipq q hq ht) ht
        obtain ⟨-, heq', -⟩ := h.other hf hoff (hipq q' hq' ht') ht'
        exact h.apart q (hipq q hq ht) q' (hipq q' hq' ht') hne m (heq ▸ hm) (heq' ▸ hm')

section
variable (h' : Wf P s') (hout : ∀ q ∈ s.ipq, q.key = k → q.t ≠ t ∧ q ∈ s'.ipq)
  (hin : ∀ q ∈ s'.ipq, q.key = k → q ∈ s.ipq)
include h' hout hin

theorem Wf.queued_same : queued s' k = queued s k ∧ ∀ y ∈ queued s k, s'.mbuf y = s.mbuf y := by
  by_cases hk : ∃ q ∈ s.ipq, q.key = k
  · obtain ⟨q, hq, rfl⟩ := hk
    obtain ⟨ht, hq'⟩ := hout q hq rfl
    obtain ⟨-, heq, hmbuf⟩ := h.other hf hoff hq ht
    rw [h.queued_of_mem hq, h'.queued_of_mem hq', heq]
    exact ⟨rfl, hmbuf⟩
  · have hnone : ∀ q ∈ s.ipq, q.key ≠ k := fun q hq hqk => hk ⟨q, hq, hqk⟩
    rw [queued_of_none hnone, queued_of_none fun q hq hqk => hnone q (hin q hq hqk) hqk]
    exact ⟨rfl, by simp⟩

theorem Wf.queued_other : pieces s' (queued s' k) = pieces s (queued s k) := by
  obtain ⟨heq, hmbuf⟩ := h.queued_same hf hoff h' hout hin
  rw [heq, pieces_congr hmbuf]

end

theorem Wf.removed (hq : q ∈ s.ipq) (ht : q.t = t) (hipq : s'.ipq = s.ipq.filter fun q' => q'.t ≠ t) :
    Wf P s' ∧ ∀ k ≠ q.key, pieces s' (queued s' k) = pieces s (queued s k) := by
  have hmem : ∀ q', q' ∈ s'.ipq ↔ q' ∈ s.ipq ∧ q'.t ≠ t := by
    intro q'
    rw [hipq, mem_filter, decide_eq_true_iff]
  have hsub : s'.ipq.Sublist s.ipq := hipq ▸ filter_sublist
  have h' : Wf P s' := h.step hf hoff (h.ts.sublist hsub) (h.keys.sublist hsub)
    (fun q' hq' _ => ((hmem q').1 hq').1) fun q' hq' ht => absurd ht ((hmem q').1 hq').2
  refine ⟨h', fun k hk => ?_⟩
  refine h.queued_other hf hoff h' (fun q' hq' hqk => ?_) fun q' hq' _ => ((hmem q').1 hq').1
  have hne : q'.t ≠ t := fun ht' => hk (hqk ▸ congrArg Ipq.key (h.eq_of_t hq' hq (ht'.trans ht.symm)))
  exact ⟨hne, (hmem q').2 ⟨hq', hne⟩⟩

end Step

/-- The queue of a datagram after a fragment, or the packet that is returned. -/
inductive Result (P : Mbuf → Prop) (ps : List (Piece Nat)) (x : Piece Nat)
    (ps' : List (Piece Nat)) : Option Packet → Prop
  | waits (bs : List Mbuf) (hps : ps' = bs.map piece) (ordered : InOrder ps')
    (each : ∀ b ∈ bs, P b) (more : finished bs = none) (adds : Adds ps x ps') :
    Result P ps x ps' none
  | done (bs : List Mbuf) (n : Nat) (hps : ps' = []) (each : ∀ b ∈ bs, P b)
    (all : finished bs = some n) (adds : Adds ps x (bs.map piece)) :
    Result P ps x ps' (some ⟨ipStart, n % 65536, ((bs.map piece).map Piece.data).flatten⟩)

/-- A fragment on the queue `q` keeps the queues in order, and the other datagrams as they
are. -/
theorem Wf.outcome {r : Option Packet} (h : Wf P s) (hq : q ∈ s.ipq)
    (hm : ∀ q' ∈ s.ipq, m ∉ fragments s q'.t) (hf : Frame q.t (m :: fragments s q.t) s s')
    (ho : Outcome (P q.key) q.t (m :: fragments s q.t) s.ipq (pieces s (fragments s q.t)) x s' r) :
    Wf P s' ∧ (∀ k ≠ q.key, pieces s' (queued s' k) = pieces s (queued s k)) ∧
      Result (P q.key) (pieces s (queued s q.key)) x (pieces s' (queued s' q.key)) r := by
  have hoff : ∀ q' ∈ s.ipq, q'.t ≠ q.t → ∀ y ∈ fragments s q'.t, y ∉ m :: fragments s q.t := by
    intro q' hq' ht y hy hown
    rcases mem_cons.1 hown with rfl | hown
    · exact hm q' hq' hy
    · exact h.apart q' hq' q hq ht y hy hown
  rw [h.queued_of_mem hq]
  cases ho with
  | waits ms sub holds ipq more adds =>
    have heq := holds.fragments_eq
    have h' : Wf P s' := by
      refine h.step hf hoff (ipq ▸ h.ts) (ipq ▸ h.keys) (fun q' hq' _ => ipq ▸ hq') ?_
      intro q' hq' ht
      rw [h.eq_of_t (ipq ▸ hq') hq ht, heq]
      exact ⟨holds, sub, more⟩
    refine ⟨h', fun k hk => ?_, ?_⟩
    · refine h.queued_other hf hoff h' (fun q' hq' hqk => ?_) fun q' hq' _ => ipq ▸ hq'
      exact ⟨fun ht => hk (hqk ▸ congrArg Ipq.key (h.eq_of_t hq' hq ht)), ipq ▸ hq'⟩
    · rw [h'.queued_of_mem (ipq ▸ hq), heq]
      refine .waits (ms.map s'.mbuf) pieces_eq_map holds.ordered ?_ more adds
      intro b hb
      obtain ⟨y, hy, rfl⟩ := mem_map.1 hb
      exact holds.each y hy
  | done bs n ipq each all adds =>
    obtain ⟨h', hother⟩ := h.removed hf hoff hq rfl ipq
    refine ⟨h', hother, .done bs n ?_ each all adds⟩
    rw [queued_of_none]
    · rfl
    · intro q' hq' hqk
      rw [ipq, mem_filter, decide_eq_true_iff] at hq'
      have hsome := find?_of_mem h.keys hq'.1
      rw [hqk, find?_of_mem h.keys hq] at hsome
      exact hq'.2 (congrArg Ipq.t (Option.some.inj hsome)).symm

section Arrival
variable (h : Wf P s) (ht : ∀ q ∈ s.ipq, q.t ≠ t) (hm : s.used m = false)
include h hm

theorem Wf.notMem_of_used (hq : q ∈ s.ipq) : m ∉ fragments s q.t := by
  intro hmem
  have := (h.holds q hq).used m hmem
  rw [hm] at this
  cases this

include ht

/-- What happens to a new `mbuf` and a new queue does not touch the queues there are. -/
theorem Wf.fresh (hf : Frame t [m] s s') (hipq : s'.ipq = s.ipq) :
    Wf P s' ∧ (∀ k, queued s' k = queued s k ∧ ∀ y ∈ queued s k, s'.mbuf y = s.mbuf y) ∧
      ∀ q ∈ s'.ipq, m ∉ fragments s' q.t := by
  have hoff : ∀ q ∈ s.ipq, q.t ≠ t → ∀ y ∈ fragments s q.t, y ∉ [m] := by
    intro q hq _ y hy hym
    rw [mem_singleton] at hym
    exact h.notMem_of_used hm hq (hym ▸ hy)
  have h' : Wf P s' := h.step hf hoff (hipq ▸ h.ts) (hipq ▸ h.keys) (fun q hq _ => hipq ▸ hq)
    fun q hq hqt => absurd hqt (ht q (hipq ▸ hq))
  refine ⟨h', fun k => ?_, fun q hq => ?_⟩
  · exact h.queued_same hf hoff h' (fun q hq _ => ⟨ht q hq, hipq ▸ hq⟩) fun q hq _ => hipq ▸ hq
  · have hqs : q ∈ s.ipq := hipq ▸ hq
    obtain ⟨-, heq, -⟩ := h.other hf hoff hqs (ht q hqs)
    rw [heq]
    exact h.notMem_of_used hm hqs

end Arrival

/-- The state in which `ip_reass` makes a queue for a new datagram. -/
def newQueue (s : State) (t : Nat) (key : Key) : State :=
  { s with ipq := ⟨t, key⟩ :: s.ipq, links := s.links.single (.ipq t) }

theorem holds_newQueue {P : Mbuf → Prop} : Holds P (newQueue s t k) t [] :=
  ⟨Circular.single _ _, by simp, by simp, List.Pairwise.nil, zero_le _⟩

theorem Wf.addQueue (h : Wf P s) (ht : ∀ q ∈ s.ipq, q.t ≠ t) (hk : ∀ q ∈ s.ipq, q.key ≠ k) : Wf P (newQueue s t k) ∧
      (∀ k' ≠ k, pieces (newQueue s t k) (queued (newQueue s t k) k') = pieces s (queued s k')) ∧
      ∀ q ∈ s.ipq, fragments (newQueue s t k) q.t = fragments s q.t := by
  have hf : Frame t [] s (newQueue s t k) :=
    ⟨fun _ _ => rfl, fun _ _ => rfl, Links.Apart.single _ _, le_rfl⟩
  have hoff : ∀ q ∈ s.ipq, q.t ≠ t → ∀ y ∈ fragments s q.t, y ∉ ([] : List Nat) := by simp
  have hin : ∀ q ∈ (newQueue s t k).ipq, q = ⟨t, k⟩ ∨ q ∈ s.ipq :=
    fun q hq => mem_cons.1 hq
  have h' : Wf P (newQueue s t k) := by
    refine h.step hf hoff ?_ ?_ ?_ ?_
    · exact pairwise_cons.2 ⟨fun q hq => (ht q hq).symm, h.ts⟩
    · exact pairwise_cons.2 ⟨fun q hq => (hk q hq).symm, h.keys⟩
    · intro q hq hqt
      rcases hin q hq with rfl | hq
      · exact absurd rfl hqt
      · exact hq
    · intro q hq hqt
      have heq : fragments (newQueue s t k) t = [] :=
        (holds_newQueue (P := P k) (s := s) (k := k)).fragments_eq
      rw [heq]
      exact ⟨holds_newQueue, List.Subset.refl _, rfl⟩
  refine ⟨h', fun k' hk' => ?_, fun q hq => (h.other hf hoff hq (ht q hq)).2.1⟩
  refine h.queued_other hf hoff h' (fun q hq _ => ⟨ht q hq, mem_cons_of_mem _ hq⟩) ?_
  intro q hq hqk
  rcases hin q hq with rfl | hq
  · exact absurd hqk.symm hk'
  · exact hq

theorem Wf.reassQueued (htrim : ∀ k, Trims (P k)) (hsound : ∀ k b, P k b → Sound b) (h : Wf P s)
    (hnot : ∀ q ∈ s.ipq, m ∉ fragments s q.t) (hused : s.used m = true) (hq : q ∈ s.ipq) (hP : P q.key (s.mbuf m))
    (hcover : ∀ y ∈ fragments s q.t, (s.mbuf m).ipOff < (s.mbuf y).ipOff →
      (piece (s.mbuf y)).stop ≤ (piece (s.mbuf m)).stop → (s.mbuf y).ext = false ∧ (s.mbuf y).doFree = false) :
    ∃ s' r, ipReassQueued s m q.t = .ok (s', r) ∧ Wf P s' ∧
      (∀ k ≠ q.key, pieces s' (queued s' k) = pieces s (queued s k)) ∧
      Result (P q.key) (pieces s (queued s q.key)) (piece (s.mbuf m)) (pieces s' (queued s' q.key)) r := by
  obtain ⟨s', r, hrun, hframe, hout⟩ := ipReassQueued_outcome (htrim q.key) (hsound q.key)
    (h.holds q hq) (hnot q hq) hused hP (h.more q hq) hcover
  exact ⟨s', r, hrun, h.outcome hq hnot hframe hout⟩

theorem Wf.reassFirst (hsound : ∀ k b, P k b → Sound b) (h : Wf P s) (ht : ∀ q ∈ s.ipq, q.t ≠ t)
    (hk : ∀ q ∈ s.ipq, q.key ≠ k) (hnot : ∀ q ∈ s.ipq, m ∉ fragments s q.t) (hused : s.used m = true)
    (hP : P k (s.mbuf m)) : ∃ s' r, insertFrag (newQueue s t k) m t (.ipq t) = .ok (s', r) ∧ Wf P s' ∧
      (∀ k' ≠ k, pieces s' (queued s' k') = pieces s (queued s k')) ∧
      Result (P k) [] (piece (s.mbuf m)) (pieces s' (queued s' k)) r := by
  obtain ⟨h₂, hother₂, hfrag⟩ := h.addQueue ht hk
  have heq : fragments (newQueue s t k) t = [] := (holds_newQueue (P := P k)).fragments_eq
  have hq : (⟨t, k⟩ : Ipq) ∈ (newQueue s t k).ipq := mem_cons_self
  have hnot₂ : ∀ q ∈ (newQueue s t k).ipq, m ∉ fragments (newQueue s t k) q.t := by
    intro q hq
    rcases mem_cons.1 hq with rfl | hq
    · rw [heq]
      simp
    · rw [hfrag q hq]
      exact hnot q hq
  have hadds : Adds [] (piece (s.mbuf m)) (pieces (newQueue s t k) ([] ++ m :: [])) := by
    intro i
    rw [nil_append, pieces_cons, covers_cons]
    simp [newQueue]
  obtain ⟨s', r, hrun, hframe, hout⟩ := insertFrag_outcome (a := []) (b := []) (hsound k)
    (holds_newQueue (s := s)) (by simp) hused hP (pairwise_singleton _ _) hadds
  obtain ⟨hwf, hother, hres⟩ := h₂.outcome (x := piece (s.mbuf m)) (r := r) hq hnot₂
    (by rw [heq]; exact hframe) (by rw [heq]; exact hout)
  refine ⟨s', r, hrun, hwf, fun k' hk' => ?_, ?_⟩
  · rw [hother k' hk', hother₂ k' hk']
  · rw [h₂.queued_of_mem hq, heq] at hres
    exact hres

def Ip.fragment (ip : Ip) : Mbuf := mAdj ip.toMbuf (4 * ip.toMbuf.ipHl)

/-- The state in which `ip_reass` has the fragment in its `mbuf`. -/
def receive (s : State) (m : Nat) (ip : Ip) : State :=
  { setMbuf s m ip.fragment with used := update s.used m true }

theorem ipReass_receive (fp : Option Nat) (ip : Ip) :
    ipReass { setMbuf s m ip.toMbuf with used := update s.used m true } m t k fp = match fp with
      | none => insertFrag (newQueue (receive s m ip) t k) m t (.ipq t)
      | some t => ipReassQueued (receive s m ip) m t := by
  have hs : setMbuf { setMbuf s m ip.toMbuf with used := update s.used m true } m
      (mAdj ip.toMbuf (4 * ip.toMbuf.ipHl)) = receive s m ip := by
    simp [receive, setMbuf, Ip.fragment]
  have hself : (setMbuf s m ip.toMbuf).mbuf m = ip.toMbuf := update_self _ _ _
  simp only [ipReass, hself, hs]
  rfl

/-- The fragments on the queue of a packet's datagram that the packet covers have their links
in memory that `m_free` does not give back. -/
def Spares (s : State) (ip : Ip) : Prop :=
  ∀ y ∈ queued s ip.key, ip.off < (s.mbuf y).ipOff → (s.mbuf y).ipOff + (s.mbuf y).ipLen ≤ ip.off + ip.payload.length →
    (s.mbuf y).ext = false ∧ (s.mbuf y).doFree = false

theorem Wf.fragment (htrim : ∀ k, Trims (P k)) (hsound : ∀ k b, P k b → Sound b)
    (h : Wf P s) (ht : ∀ q ∈ s.ipq, q.t ≠ t) (hm : s.used m = false) (hP : P ip.key ip.fragment)
    (hx : piece ip.fragment = ⟨ip.off, ip.payload⟩) (hsafe : Spares s ip) :
    ∃ s' r, ipReass { setMbuf s m ip.toMbuf with used := update s.used m true } m t
        ip.key ((s.ipq.find? fun q => q.key = ip.key).map Ipq.t) = .ok (s', r) ∧
      Wf P s' ∧ (∀ k ≠ ip.key, pieces s' (queued s' k) = pieces s (queued s k)) ∧
      Result (P ip.key) (pieces s (queued s ip.key)) ⟨ip.off, ip.payload⟩
        (pieces s' (queued s' ip.key)) r := by
  have hf : Frame t [m] s (receive s m ip) := by
    refine ⟨fun y hy => ?_, fun y hy => ?_, .refl _, le_rfl⟩
    all_goals exact update_of_ne (by simpa using hy) _ _
  have hmbuf : (receive s m ip).mbuf m = ip.fragment := update_self _ _ _
  have hused : (receive s m ip).used m = true := update_self _ _ _
  obtain ⟨h₁, hsame, hnot⟩ := h.fresh ht hm hf rfl
  have hpieces : ∀ k, pieces (receive s m ip) (queued (receive s m ip) k) = pieces s (queued s k) := by
    intro k
    rw [(hsame k).1, pieces_congr (hsame k).2]
  rw [ipReass_receive]
  cases hfind : s.ipq.find? fun q => q.key = ip.key with
  | some q =>
    have hq : q ∈ (receive s m ip).ipq := mem_of_find?_eq_some hfind
    have hkey : q.key = ip.key := by simpa using find?_some hfind
    obtain ⟨s', r, hrun, hwf, hother, hres⟩ := h₁.reassQueued htrim hsound hnot hused hq
      (by rw [hmbuf, hkey]; exact hP) (by
        intro y hy hlt hle
        have hylen := (hsound _ _ ((h₁.holds q hq).each y hy)).len
        rw [← h₁.queued_of_mem hq, hkey, (hsame ip.key).1] at hy
        have hoff : ip.fragment.ipOff = ip.off := congrArg Piece.off hx
        rw [(hsame ip.key).2 y hy] at hlt hle hylen ⊢
        rw [hmbuf, hoff] at hlt
        rw [hmbuf, hx] at hle
        exact hsafe y hy hlt (hylen ▸ hle))
    refine ⟨s', r, hrun, hwf, fun k hk => ?_, ?_⟩
    · rw [hother k (hkey ▸ hk), hpieces]
    · rw [hmbuf, hx, hkey, hpieces] at hres
      exact hres
  | none =>
    have hnone : ∀ q ∈ s.ipq, q.key ≠ ip.key := by simpa using hfind
    obtain ⟨s', r, hrun, hwf, hother, hres⟩ := h₁.reassFirst hsound ht hnone hnot hused (hmbuf ▸ hP)
    refine ⟨s', r, hrun, hwf, fun k hk => ?_, ?_⟩
    · rw [hother k hk, hpieces]
    · have hempty : pieces s (queued s ip.key) = [] := by
        rw [queued_of_none hnone]
        rfl
      rw [hempty]
      rw [hmbuf, hx] at hres
      exact hres

theorem Wf.ipFreef (h : Wf P s) (hq : q ∈ s.ipq) : ∃ s', ipFreef s q.t = .ok s' ∧ Wf P s' ∧
      ∀ k ≠ q.key, pieces s' (queued s' k) = pieces s (queued s k) := by
  have hh := h.holds q hq
  obtain ⟨s₁, hloop, hmbuf, hipq, htotal, hused, hapart⟩ :=
    freeLoop_spec hh.circ (lt_succ_of_le hh.short)
  generalize hs' : ({ s₁ with ipq := s₁.ipq.filter fun q' => q'.t ≠ q.t } : State) = s'
  have hrun : Reass.ipFreef s q.t = .ok s' := by
    rw [Reass.ipFreef, next_ipq hh.circ, hloop, ← hs']
    rfl
  have hf : Frame q.t (fragments s q.t) s s' := by
    subst hs'
    exact ⟨fun y _ => congrFun hmbuf y, hused, hapart, htotal.ge⟩
  have hoff : ∀ q' ∈ s.ipq, q'.t ≠ q.t → ∀ y ∈ fragments s q'.t, y ∉ fragments s q.t :=
    fun q' hq' ht => h.apart q' hq' q hq ht
  exact ⟨s', hrun, h.removed hf hoff hq rfl (by rw [← hs', ← hipq])⟩

def Ip.IsFragment (ip : Ip) : Prop := ip.mf = true ∨ ip.off ≠ 0

theorem Wf.whole (h : Wf P s) (hip : ¬ ip.IsFragment) : ∃ s' p, ipInput s m t ip = .ok (s', some p) ∧ Wf P s' ∧
      ∀ k ≠ ip.key, pieces s' (queued s' k) = pieces s (queued s k) := by
  have hno : ¬ (ip.mf = true ∨ ip.off ≠ 0) := hip
  simp only [ipInput, if_neg hno]
  split_ifs
  · cases hfind : s.ipq.find? fun q => q.key = ip.key with
    | none => exact ⟨s, _, rfl, h, fun _ _ => rfl⟩
    | some q =>
      have hq : q ∈ s.ipq := mem_of_find?_eq_some hfind
      have hkey : q.key = ip.key := by simpa using find?_some hfind
      obtain ⟨s', hrun, h', hother⟩ := h.ipFreef hq
      refine ⟨s', ⟨ipStart, ip.data.length - 4 * ip.ipHl, ip.payload⟩, ?_, h', hkey ▸ hother⟩
      simp only [Option.map_some, hrun, ok_bind]
      rfl
  · exact ⟨s, _, rfl, h, fun _ _ => rfl⟩

theorem Ip.IsFragment.flags (h : ip.IsFragment) : ip.ipOff % 65536 &&& 0xbfff ≠ 0 := by
  intro hz
  have hmask : ∀ i < 16, i ≠ 14 → (0xbfff : Nat).testBit i = true := by decide
  have hbit : ∀ i < 16, i ≠ 14 → ip.ipOff.testBit i = false := by
    intro i hi hne
    have hb := congrArg (fun n => n.testBit i) hz
    have hmod : (ip.ipOff % 65536).testBit i = ip.ipOff.testBit i := by
      rw [show (65536 : Nat) = 2 ^ 16 from rfl, testBit_mod_two_pow]
      simp [hi]
    simpa [hmask i hi hne, hmod] using hb
  rcases h with hmf | hoff
  · have hand : ip.ipOff &&& 0x2000 = 0 := by
      apply eq_of_testBit_eq
      intro i
      rw [testBit_and, show (0x2000 : Nat) = 2 ^ 13 from rfl, testBit_two_pow]
      by_cases hi : 13 = i
      · simp [← hi, hbit 13 (by omega) (by omega)]
      · simp [hi]
    simp [Ip.mf, hand] at hmf
  apply hoff
  apply eq_of_testBit_eq
  intro i
  rw [Ip.off, show (65536 : Nat) = 2 ^ 16 from rfl, testBit_mod_two_pow, testBit_shiftLeft, zero_testBit]
  by_cases hi : i < 16
  · by_cases hge : i ≥ 3
    · simp [hbit (i - 3) (by omega) (by omega)]
    · simp [hge]
  · simp [hi]

end GemDroid.Slirp.Reass
