import GemDroid.Lib.Reach
import GemDroid.Slirp.ReassQueues

/-! A datagram is reassembled.

Fragments of a datagram come in, in any order and more than once, between packets of other
datagrams. The datagram is returned with the fragment that brings the last of its bytes, as
long as the reassembly does not lose its way in memory. It does when the first fragment came
in an external buffer, when a fragment that was covered by another one is in memory that is
given back, and when a fragment is longer than a buffer grows. -/
namespace GemDroid.Slirp.Reass
open Lib List Option

structure Datagram where
  key : Key
  text : List Nat
  fits : text.length < 65536

variable {D : Datagram} {bs : List Mbuf} {n i : Nat} {b : Mbuf} {ip : Ip}

structure Of (D : Datagram) (b : Mbuf) : Prop where
  part : (piece b).PartOf D.text
  within : (piece b).stop ≤ D.text.length
  mf : b.mf = true ↔ (piece b).stop < D.text.length

def Good (D : Datagram) (k : Key) (b : Mbuf) : Prop := Sound b ∧ (k = D.key → Of D b)

theorem trims_good (k : Key) : Trims (Good D k) := by
  intro b i h hi
  refine ⟨h.1.trim hi, fun hk => ?_⟩
  have hof := h.2 hk
  have hpiece := h.1.piece_trim hi
  have hstop : (piece (trim b i)).stop = (piece b).stop := by
    rw [hpiece]
    exact (piece b).stop_skip hi
  refine ⟨?_, hstop ▸ hof.within, ?_⟩
  · rw [hpiece]
    exact hof.part.skip i
  · rw [hstop]
    exact hof.mf

theorem exists_last_of_lastStop (hne : bs ≠ []) :
    ∃ z ∈ bs, bs.getLast? = some z ∧ lastStop (bs.map piece) = (piece z).stop := by
  refine ⟨bs.getLast hne, getLast_mem hne, getLast?_eq_some_getLast hne, ?_⟩
  simp [lastStop, getLast?_map, getLast?_eq_some_getLast hne]

theorem text_of_finished (hof : ∀ b ∈ bs, Of D b) (h : finished bs = some n) :
    n = D.text.length ∧ ((bs.map piece).map Piece.data).flatten = D.text ∧
      ∀ i < D.text.length, Covers (bs.map piece) i := by
  rw [finished] at h
  split_ifs at h with hlast
  have hne : bs ≠ [] := by
    intro hnil
    simp [hnil] at hlast
  obtain ⟨z, hz, hzlast, hstop⟩ := exists_last_of_lastStop hne
  have hmf : z.mf = false := by simpa [hzlast] using hlast
  have hn : n = D.text.length := by
    have hend := lastStop_of_gapless h (by simpa using hne)
    have hwithin := (hof z hz).within
    have hlt : ¬ (piece z).stop < D.text.length := fun hlt => by
      rw [(hof z hz).mf.2 hlt] at hmf
      cases hmf
    omega
  subst hn
  refine ⟨rfl, flatten_eq_of_gapless h ?_, fun i hi => covers_of_gapless h (Nat.zero_le _) hi⟩
  intro p hp
  obtain ⟨b, hb, rfl⟩ := mem_map.1 hp
  exact (hof b hb).part

theorem not_covers_of_finished (hof : ∀ b ∈ bs, Of D b) (hord : InOrder (bs.map piece))
    (hpos : 0 < D.text.length) (h : finished bs = none) : ¬ ∀ i < D.text.length, Covers (bs.map piece) i := by
  intro hall
  have hne : bs ≠ [] := by
    rintro rfl
    exact covers_nil (hall 0 hpos)
  have hgap : gapless 0 (bs.map piece) = some D.text.length := by
    refine gapless_of_covers hord (Nat.zero_le _) (fun _ _ => Nat.zero_le _) ?_ fun i _ => hall i
    intro p hp
    obtain ⟨b, hb, rfl⟩ := mem_map.1 hp
    exact (hof b hb).within
  obtain ⟨z, hz, hzlast, hstop⟩ := exists_last_of_lastStop hne
  have hend := lastStop_of_gapless hgap (by simpa using hne)
  cases hmf : z.mf with
  | true =>
    have := (hof z hz).mf.1 hmf
    omega
  | false =>
    rw [finished, if_pos (by simp [hzlast, hmf]), hgap] at h
    cases h

/-- What `ip_input` has checked of a packet before: the header lies in the packet, the packet
in the frame, and a fragment in a datagram. -/
structure Ip.Valid (ip : Ip) : Prop where
  header : 4 * ip.ipHl ≤ ip.data.length
  frame : 14 + ip.data.length ≤ ip.pktLen
  within : ip.off + ip.payload.length < 65536

structure FragmentOf (D : Datagram) (ip : Ip) : Prop where
  frag : ip.IsFragment
  part : ip.payload <+: D.text.drop ip.off
  within : ip.off + ip.payload.length ≤ D.text.length
  mf : ip.mf = true ↔ ip.off + ip.payload.length < D.text.length

/-- A fragment that is handled as meant: the datagram's first one is not in an external
buffer, none is longer than a buffer grows, and those it covers have their links in memory
that stays. -/
structure Handled (s : State) (ip : Ip) : Prop where
  first : ip.off = 0 → ip.pktLen + 2 ≤ msize
  small : ip.payload.length ≤ mincsize
  spares : Spares s ip

theorem piece_fragment (ip : Ip) : piece ip.fragment = ⟨ip.off, ip.payload⟩ := by
  simp only [Ip.fragment, Ip.toMbuf, mInc]
  split_ifs <;> rfl

theorem sound_fragment {s : State} (hv : ip.Valid) (h : Handled s ip) : Sound ip.fragment := by
  have hheader := hv.header
  have hframe := hv.frame
  have hsmall := h.small
  have hwithin := hv.within
  have hlen : ip.payload.length = ip.data.length - 4 * ip.ipHl := length_drop
  obtain ⟨ext, size, hfrag, hsize, hext⟩ : ∃ ext size, ip.fragment = ⟨ext, ip.doFree, size, ipStart + 4 * ip.ipHl,
      ip.payload, ip.ipHl, ip.off, ip.data.length - 4 * ip.ipHl, ip.mf⟩ ∧ ip.pktLen + 2 ≤ size ∧
      (ip.pktLen + 2 ≤ msize → ext = false) := by
    by_cases hfit : msize < ip.pktLen + 2
    · refine ⟨true, ip.pktLen + 2, ?_, le_rfl, fun _ => by omega⟩
      simp only [Ip.fragment, Ip.toMbuf, if_pos hfit, mInc, if_neg (Nat.lt_asymm hfit)]
      rfl
    · refine ⟨false, msize, ?_, by omega, fun _ => rfl⟩
      simp only [Ip.fragment, Ip.toMbuf, if_neg hfit]
      rfl
  rw [hfrag]
  refine ⟨hlen.symm, ?_, hsmall, hwithin, fun hoff => ⟨hext (h.first hoff), rfl⟩⟩
  simp only [hlen, ipStart]
  omega

/-- A packet and the `mbuf`s that `m_get` gives for it. -/
structure Delivery where
  m : Nat
  t : Nat
  ip : Ip

/-- The queues, and the fragments of a datagram that have come in since it was last
returned. -/
structure Run where
  state : State
  arrived : List (Piece Nat)

variable {c : Run}

/-- A packet that may come in: what `m_get` gives is not in use, and packets with the key of
the datagram are fragments of it. -/
structure Arrives (D : Datagram) (s : State) (d : Delivery) : Prop where
  unused : s.used d.m = false
  fresh : ∀ q ∈ s.ipq, q.t ≠ d.t
  valid : d.ip.Valid
  ours : d.ip.key = D.key → FragmentOf D d.ip

def Run.take (D : Datagram) (c : Run) (ip : Ip) (r : Option Packet) : List (Piece Nat) :=
  if ip.key = D.key then if r.isSome then [] else ⟨ip.off, ip.payload⟩ :: c.arrived
  else c.arrived

def Run.Init (c : Run) : Prop := c.state.ipq = [] ∧ c.arrived = []

/-- A packet comes in, and is handled as meant if it is a fragment. -/
def Run.Next (D : Datagram) (c : Run) (d : Delivery) (c' : Run) : Prop :=
  Arrives D c.state d ∧ (d.ip.IsFragment → Handled c.state d.ip) ∧
    ∃ r, ipInput c.state d.m d.t d.ip = .ok (c'.state, r) ∧ c'.arrived = c.take D d.ip r

structure Run.Inv (D : Datagram) (c : Run) : Prop where
  wf : Wf (Good D) c.state
  holds : ∀ i, Covers (pieces c.state (queued c.state D.key)) i ↔ Covers c.arrived i

def Run.Answers (D : Datagram) (c : Run) (ip : Ip) (r : Option Packet) : Prop :=
  ip.key = D.key → (r.isSome = true ↔ ∀ i < D.text.length, Covers (⟨ip.off, ip.payload⟩ :: c.arrived) i) ∧
    ∀ p, r = some p → p = ⟨ipStart, D.text.length, D.text⟩

theorem FragmentOf.good {s : State} (hv : ip.Valid) (hh : Handled s ip)
    (hf : ip.key = D.key → FragmentOf D ip) : Good D ip.key ip.fragment := by
  refine ⟨sound_fragment hv hh, fun hk => ?_⟩
  have hpiece := piece_fragment ip
  have hmf : ip.fragment.mf = ip.mf := by
    simp only [Ip.fragment, Ip.toMbuf, mInc]
    split_ifs <;> rfl
  refine ⟨?_, ?_, ?_⟩
  · rw [hpiece]
    exact (hf hk).part
  · rw [hpiece]
    exact (hf hk).within
  · rw [hpiece, hmf]
    exact (hf hk).mf

theorem FragmentOf.text_pos (h : FragmentOf D ip) : 0 < D.text.length := by
  have hwithin := h.within
  rcases h.frag with hmf | hoff
  · have := h.mf.1 hmf
    omega
  · omega

theorem Run.Inv.answers {r : Option Packet} {ps : List (Piece Nat)} (h : Inv D c)
    (hf : FragmentOf D ip) (hkey : ip.key = D.key)
    (hres : Result (Good D ip.key) (pieces c.state (queued c.state ip.key)) ⟨ip.off, ip.payload⟩ ps r) :
    (∀ i, Covers ps i ↔ Covers (c.take D ip r) i) ∧ c.Answers D ip r := by
  have hadds : ∀ ps', Adds (pieces c.state (queued c.state ip.key)) ⟨ip.off, ip.payload⟩ ps' →
      ∀ i, Covers ps' i ↔ Covers (⟨ip.off, ip.payload⟩ :: c.arrived) i := by
    intro ps' hadds i
    rw [hadds i, hkey, h.holds i, covers_cons, or_comm]
  cases hres with
  | waits bs hps ordered each more adds =>
    have hof : ∀ b ∈ bs, Of D b := fun b hb => (each b hb).2 hkey
    have hcov := hadds _ adds
    refine ⟨by simpa [take, hkey] using hcov, fun _ => ⟨?_, by simp⟩⟩
    have hnot := not_covers_of_finished hof (hps ▸ ordered) hf.text_pos more
    rw [← hps] at hnot
    simp only [isSome_none, Bool.false_eq_true, false_iff]
    exact fun hall => hnot fun i hi => (hcov i).2 (hall i hi)
  | done bs n hps each all adds =>
    have hof : ∀ b ∈ bs, Of D b := fun b hb => (each b hb).2 hkey
    have hcov := hadds _ adds
    obtain ⟨hn, htext, hall⟩ := text_of_finished hof all
    refine ⟨by simp [take, hkey, hps], fun _ => ⟨?_, fun p hp => ?_⟩⟩
    · simp only [isSome_some, true_iff]
      exact fun i hi => (hcov i).1 (hall i hi)
    · rw [← some.inj hp, htext, hn, Nat.mod_eq_of_lt D.fits]

/-- A packet comes in: the datagram is returned if it is complete, and what has come in of it
is on its queue otherwise. -/
theorem Run.Inv.deliver {d : Delivery} (h : Inv D c) (hd : Arrives D c.state d)
    (hh : d.ip.IsFragment → Handled c.state d.ip) :
    ∃ s' r, ipInput c.state d.m d.t d.ip = .ok (s', r) ∧ Inv D ⟨s', c.take D d.ip r⟩ ∧ c.Answers D d.ip r := by
  by_cases hfrag : d.ip.IsFragment
  · obtain ⟨s', r, hrun, hwf, hother, hres⟩ := h.wf.fragment trims_good (fun _ _ hb => hb.1)
      hd.fresh hd.unused (FragmentOf.good hd.valid (hh hfrag) hd.ours) (piece_fragment _)
      (hh hfrag).spares
    have hrun' : ipInput c.state d.m d.t d.ip = .ok (s', r) := by
      have hyes : d.ip.mf = true ∨ d.ip.off ≠ 0 := hfrag
      simp only [ipInput, if_pos hfrag.flags, if_pos hyes]
      exact hrun
    by_cases hkey : d.ip.key = D.key
    · obtain ⟨hcov, hans⟩ := h.answers (hd.ours hkey) hkey hres
      exact ⟨s', r, hrun', ⟨hwf, hkey ▸ hcov⟩, hans⟩
    · refine ⟨s', r, hrun', ⟨hwf, fun i => ?_⟩, fun hk => absurd hk hkey⟩
      rw [take, if_neg hkey, hother _ (Ne.symm hkey)]
      exact h.holds i
  · obtain ⟨s', p, hrun, hwf, hother⟩ := h.wf.whole (m := d.m) (t := d.t) hfrag
    have hkey : d.ip.key ≠ D.key := fun hkey => hfrag (hd.ours hkey).frag
    refine ⟨s', some p, hrun, ⟨hwf, fun i => ?_⟩, fun hk => absurd hk hkey⟩
    rw [take, if_neg hkey, hother _ hkey.symm]
    exact h.holds i

theorem Run.Inv.reach (hc : Reach Init (Next D) c) : Inv D c := by
  refine hc.invariant (fun c hc => ?_) fun c d c' h hn => ?_
  · obtain ⟨hipq, harrived⟩ := hc
    refine ⟨⟨?_, ?_, ?_, ?_, ?_⟩, ?_⟩
    all_goals simp [hipq, harrived, queued]
  · obtain ⟨hd, hh, r, hrun, harrived⟩ := hn
    obtain ⟨s', r', hrun', hinv, -⟩ := h.deliver hd hh
    rw [hrun] at hrun'
    cases hrun'
    rw [← harrived] at hinv
    exact hinv

/-- In every run in which fragments are handled as meant, the datagram is returned with the
fragment that brings the last of its bytes and not before, and it is the one that was sent. -/
theorem datagram_reassembled {c : Run} (hc : Reach Run.Init (Run.Next D) c) {d : Delivery}
    (hd : Arrives D c.state d) (hh : d.ip.IsFragment → Handled c.state d.ip) :
    ∃ s' r, ipInput c.state d.m d.t d.ip = .ok (s', r) ∧ c.Answers D d.ip r := by
  obtain ⟨s', r, hrun, -, hans⟩ := (Run.Inv.reach hc).deliver hd hh
  exact ⟨s', r, hrun, hans⟩

def sampleFragment (n off len : Nat) : Ip where
  key := ⟨7, 0x0a00020f, 0x0a000202, 17⟩
  ipHl := 5
  ipOff := off / 8 + if off + len < n then 0x2000 else 0
  data := replicate 20 0 ++ ((range n).drop off).take len
  pktLen := 34 + len
  doFree := false

def emptyState : State where
  links := ⟨id, id⟩
  mbuf := fun _ => ⟨false, false, msize, 0, [], 0, 0, 0, false⟩
  used := fun _ => false
  ipq := []
  total := 0

def stateAfter (s : State) (d : Delivery) : State :=
  match ipInput s d.m d.t d.ip with
  | .ok (s', _) => s'
  | .error _ => s

def sampleDatagram : Datagram :=
  ⟨⟨7, 0x0a00020f, 0x0a000202, 17⟩, range 24, by decide⟩

theorem sample_reassembled : ∃ s' r, ipInput (stateAfter emptyState ⟨0, 0, sampleFragment 24 8 16⟩) 1 1
        (sampleFragment 24 0 16) = .ok (s', r) ∧ r = some ⟨ipStart, 24, range 24⟩ := by
  have hfirst : Run.Next sampleDatagram ⟨emptyState, []⟩ ⟨0, 0, sampleFragment 24 8 16⟩
      ⟨stateAfter emptyState ⟨0, 0, sampleFragment 24 8 16⟩, [⟨8, ((range 24).drop 8).take 16⟩]⟩ := by
    refine ⟨⟨rfl, by simp [emptyState], ⟨by decide, by decide, by decide⟩,
      fun _ => ⟨.inr (by decide), by decide, by decide, by decide⟩⟩,
      fun _ => ⟨by decide, by decide, ?_⟩, none, rfl, by decide⟩
    unfold Spares
    decide
  have hstart : Reach Run.Init (Run.Next sampleDatagram) ⟨emptyState, []⟩ := .start ⟨rfl, rfl⟩
  have hreach := hstart.step hfirst
  have harrives : Arrives sampleDatagram (stateAfter emptyState ⟨0, 0, sampleFragment 24 8 16⟩)
      ⟨1, 1, sampleFragment 24 0 16⟩ :=
    ⟨rfl, by decide, ⟨by decide, by decide, by decide⟩, fun _ => ⟨.inl (by decide), by decide, by decide, by decide⟩⟩
  obtain ⟨s', r, hrun, hans⟩ := datagram_reassembled hreach harrives
    fun _ => ⟨by decide, by decide, by unfold Spares; decide⟩
  refine ⟨s', r, hrun, ?_⟩
  obtain ⟨hiff, heq⟩ := hans rfl
  have hsome : r.isSome = true := hiff.2 (by unfold Covers; decide)
  obtain ⟨p, hp⟩ := isSome_iff_exists.1 hsome
  rw [hp, heq p hp]
  rfl

def faultOf {α : Type} : Except Fault α → Option Fault
  | .ok _ => none
  | .error e => some e

def longDatagram : Datagram :=
  ⟨⟨7, 0x0a00020f, 0x0a000202, 17⟩, range 2008, by simp⟩

/-- The first fragment of a datagram is longer than an `mbuf`. When the second one completes
the datagram, the header is looked for outside of any buffer. -/
theorem long_first_lost : (FragmentOf longDatagram (sampleFragment 2008 0 2000) ∧
      FragmentOf longDatagram (sampleFragment 2008 2000 8) ∧
      ∀ i < 2008, Covers [⟨2000, (sampleFragment 2008 2000 8).payload⟩, ⟨0, (sampleFragment 2008 0 2000).payload⟩] i) ∧
    faultOf (ipInput (stateAfter emptyState ⟨0, 0, sampleFragment 2008 0 2000⟩) 1 1
      (sampleFragment 2008 2000 8)) = some .wildPointer := by
  have hfirst : (sampleFragment 2008 0 2000).payload = (range 2008).take 2000 := by
    simp [Ip.payload, sampleFragment]
  have hlast : (sampleFragment 2008 2000 8).payload = ((range 2008).drop 2000).take 8 := by
    simp [Ip.payload, sampleFragment]
  have htext : longDatagram.text = range 2008 := by simp only [longDatagram]
  have hoff₁ : (sampleFragment 2008 0 2000).off = 0 := by decide
  have hoff₂ : (sampleFragment 2008 2000 8).off = 2000 := by decide
  have hmf₁ : (sampleFragment 2008 0 2000).mf = true := by decide
  have hmf₂ : (sampleFragment 2008 2000 8).mf = false := by decide
  refine ⟨⟨⟨.inl hmf₁, ?_, ?_, ?_⟩, ⟨.inr (by rw [hoff₂]; decide), ?_, ?_, ?_⟩, ?_⟩, ?_⟩
  · rw [hfirst, hoff₁, htext, drop_zero]
    exact take_prefix 2000 (range 2008)
  · simp [hfirst, hoff₁, longDatagram]
  · simp [hfirst, hoff₁, hmf₁, longDatagram]
  · rw [hlast, hoff₂, htext]
    exact take_prefix 8 ((range 2008).drop 2000)
  · simp [hlast, hoff₂, longDatagram]
  · simp [hlast, hoff₂, hmf₂, longDatagram]
  · intro i hi
    rw [hfirst, hlast]
    simp only [Covers, Piece.stop, mem_cons, not_mem_nil, or_false, exists_eq_or_imp,
      exists_eq_left, length_take, length_drop, length_range]
    omega
  · decide +kernel

end GemDroid.Slirp.Reass
