import GemDroid.Slirp.IfOrder

/-! What the output queues do over a whole run.

`Good` adds to `Placed` that the counters count and that for every socket the packets sent,
followed by those that wait, are the packets queued. Every call keeps it. What is wanted of
the queues, `Delivered`, is read off it: it speaks of the packets by their numbers alone. -/
namespace GemDroid.Slirp
open Lib Function List

variable {all all' fast batch : List Session} {so : Option Sock} {m k : Nat} {c : IfState}

section Numbers
variable (log : List (Option Sock × Nat)) (sent : List Nat) (so : Option Sock)

def ofSock (k : Nat) : Bool := decide ((log[k]?).map Prod.fst = some so)

def queuedOf : List Nat := (range log.length).filter (ofSock log so)

def sentOf : List Nat := sent.filter (ofSock log so)

/-- The packets that have been queued and not sent. -/
def unsent : List Nat := (range log.length).filter fun k => decide (k ∉ sent)

end Numbers

structure Counted (ifQueued : Int) (soQueued : Sock → Int) (all : List Session) : Prop where
  ifQueued : ifQueued = (packets all).length
  soQueued : ∀ s, soQueued s = (pending all (some s)).length

structure Ordered (serial : Nat → Nat) (log : List (Option Sock × Nat)) (sent : List Nat)
    (all : List Session) : Prop where
  order : ∀ so, sentOf log sent so ++ (pending all so).map serial = queuedOf log so
  known : ∀ k ∈ sent, k < log.length
  owner : ∀ m ∈ packets all, (log[serial m]?).map Prod.snd = some m

section Ordered
variable {serial : Nat → Nat} {log : List (Option Sock × Nat)} {sent : List Nat} {s : Session}

theorem mem_packets_of_pending (h : m ∈ pending all so) : m ∈ packets all := by
  obtain ⟨s, hs, hm⟩ := mem_packets.1 h
  exact mem_packets.2 ⟨s, (mem_filter.1 hs).1, hm⟩

theorem exists_pending (h : m ∈ packets all) : ∃ so, m ∈ pending all so := by
  obtain ⟨s, hs, hm⟩ := mem_packets.1 h
  exact ⟨s.so, mem_packets.2 ⟨s, mem_filter.2 ⟨hs, by simp⟩, hm⟩⟩

theorem Ordered.serial_mem (h : Ordered serial log sent all) (hm : m ∈ pending all so) :
    serial m ∈ queuedOf log so := by
  rw [← h.order so]
  exact mem_append_right _ (mem_map_of_mem hm)

theorem queuedOf_nodup : (queuedOf log so).Nodup := nodup_range.filter _

section
variable (h : Ordered serial log sent all)
include h

theorem Ordered.nodup (so : Option Sock) :
    (sentOf log sent so ++ (pending all so).map serial).Nodup := h.order so ▸ queuedOf_nodup

theorem Ordered.serial_notMem (hm : m ∈ pending all so) : serial m ∉ sent := by
  intro hs
  have hq := h.serial_mem hm
  have hsent : serial m ∈ sentOf log sent so := mem_filter.2 ⟨hs, (mem_filter.1 hq).2⟩
  exact (nodup_append.1 (h.nodup so)).2.2 _ hsent _ (mem_map_of_mem hm) rfl

theorem Ordered.serial_unsent (hm : m ∈ packets all) : serial m ∈ unsent log sent := by
  obtain ⟨so, hp⟩ := exists_pending hm
  refine mem_filter.2 ⟨(mem_filter.1 (h.serial_mem hp)).1, ?_⟩
  simpa using h.serial_notMem hp

end

theorem ofSock_append (hk : k < log.length) (so' : Option Sock) :
    ofSock (log ++ [(so, m)]) so' k = ofSock log so' k := by
  simp [ofSock, getElem?_append_left hk]

theorem sentOf_append (h : ∀ k ∈ sent, k < log.length) (so' : Option Sock) :
    sentOf (log ++ [(so, m)]) sent so' = sentOf log sent so' :=
  filter_congr fun k hk => ofSock_append (h k hk) so'

theorem queuedOf_append (so' : Option Sock) : queuedOf (log ++ [(so, m)]) so' =
    queuedOf log so' ++ if so' = so then [log.length] else [] := by
  have hold : (range log.length).filter (ofSock (log ++ [(so, m)]) so') = queuedOf log so' :=
    filter_congr fun k hk => ofSock_append (mem_range.1 hk) so'
  rw [queuedOf, length_append, length_singleton, range_succ, filter_append, hold]
  congr 1
  by_cases he : so' = so
  · simp [ofSock, he]
  · have he' : so ≠ so' := fun h => he h.symm
    simp [ofSock, he, he']

section
variable (h : Ordered serial log sent all)
include h

theorem Ordered.queue (hj : Joined all all' so m) (hm : m ∉ packets all) :
    Ordered (update serial m log.length) (log ++ [(so, m)]) sent all' := by
  have hserial : ∀ m' ∈ packets all, update serial m log.length m' = serial m' :=
    fun m' hm' => update_of_ne (fun he : m' = m => hm (he ▸ hm')) _ _
  constructor
  · intro so'
    have hmap : (pending all so').map (update serial m log.length) = (pending all so').map serial :=
      map_congr_left fun m' hm' => hserial m' (mem_packets_of_pending hm')
    rw [sentOf_append h.known, queuedOf_append, hj.ofSock, map_append, hmap, ← append_assoc, h.order so']
    by_cases he : so' = so
    · simp [he]
    · simp [he]
  · intro k hk
    have := h.known k hk
    rw [length_append]
    omega
  · intro m' hm'
    rcases mem_cons.1 (hj.perm.mem_iff.1 hm') with rfl | hm'
    · simp
    · obtain ⟨so', hp⟩ := exists_pending hm'
      have hk := mem_range.1 (mem_filter.1 (h.serial_mem hp)).1
      rw [hserial m' hm', getElem?_append_left hk]
      exact h.owner m' hm'

theorem Ordered.send (hl : Left all all' s) : Ordered serial log (sent ++ [serial s.head]) all' := by
  have hmem : s.head ∈ pending all s.so := by
    rw [hl.ofSock]
    simp
  obtain ⟨hrange, hsock⟩ := mem_filter.1 (h.serial_mem hmem)
  constructor
  · intro so
    have ho := h.order so
    rw [hl.ofSock so, map_append, ← append_assoc] at ho
    rw [← ho, sentOf, filter_append]
    congr 2
    by_cases he : so = s.so
    · simp [he, hsock]
    have hne : ofSock log so (serial s.head) = false := by
      have hs : (log[serial s.head]?).map Prod.fst = some s.so := of_decide_eq_true hsock
      have hne : s.so ≠ so := fun h' => he h'.symm
      simp [ofSock, hs, hne]
    simp [he, hne]
  · exact forall_mem_append.2 ⟨h.known, forall_mem_singleton.2 (mem_range.1 hrange)⟩
  · intro m hm
    exact h.owner m (hl.perm.mem_iff.2 (mem_cons_of_mem _ hm))

theorem Ordered.congr (hp : ∀ so, pending all' so = pending all so) (hperm : (packets all').Perm (packets all)) :
    Ordered serial log sent all' :=
  ⟨fun so => hp so ▸ h.order so, h.known, fun m hm => h.owner m (hperm.mem_iff.1 hm)⟩

theorem Ordered.pending_eq (so : Option Sock) :
    (pending all so).map serial = (unsent log sent).filter (ofSock log so) := by
  have hsent : ∀ k ∈ sentOf log sent so, ¬ decide (k ∉ sent) = true := by
    intro k hk
    simpa using (mem_filter.1 hk).1
  have hwait : ∀ k ∈ (pending all so).map serial, decide (k ∉ sent) = true := by
    intro k hk
    obtain ⟨m, hm, rfl⟩ := mem_map.1 hk
    simpa using h.serial_notMem hm
  have hcomm : (unsent log sent).filter (ofSock log so) = (queuedOf log so).filter fun k => decide (k ∉ sent) := by
    simp [unsent, queuedOf, Bool.and_comm]
  rw [hcomm, ← h.order so, filter_append, filter_eq_nil_iff.2 hsent, filter_eq_self.2 hwait, nil_append]

end

theorem exists_sock (hk : k < log.length) : ∃ so, ofSock log so k = true :=
  ⟨(log[k]).1, by simp [ofSock, getElem?_eq_getElem hk]⟩

theorem Ordered.unsent_perm (h : Ordered serial log sent all) (hd : (packets all).Nodup) :
    ((packets all).map serial).Perm (unsent log sent) := by
  have hinj : ∀ m ∈ packets all, ∀ m' ∈ packets all, serial m = serial m' → m = m' := by
    intro m hm m' hm' he
    have h₁ := h.owner m hm
    rw [he, h.owner m' hm'] at h₁
    exact (Option.some.inj h₁).symm
  refine (perm_ext_iff_of_nodup (List.Nodup.map_on hinj hd) (nodup_range.filter _)).2 ?_
  intro k
  constructor
  · intro hk
    obtain ⟨m, hm, rfl⟩ := mem_map.1 hk
    exact h.serial_unsent hm
  · intro hk
    obtain ⟨so, hso⟩ := exists_sock (mem_range.1 (mem_filter.1 hk).1)
    have hp : k ∈ (pending all so).map serial := by
      rw [h.pending_eq]
      exact mem_filter.2 ⟨hk, hso⟩
    obtain ⟨m, hm, rfl⟩ := mem_map.1 hp
    exact mem_map_of_mem (mem_packets_of_pending hm)

theorem Ordered.sent_nodup (h : Ordered serial log sent all) : sent.Nodup := by
  rw [nodup_iff_count_le_one]
  intro k
  by_cases hk : k ∈ sent
  · obtain ⟨so, hso⟩ := exists_sock (h.known k hk)
    rw [← count_filter hso]
    exact nodup_iff_count_le_one.1 (nodup_append.1 (h.nodup so)).1 k
  · rw [count_eq_zero_of_not_mem hk]
    exact Nat.zero_le _

end Ordered

structure Good (c : IfState) (fast batch : List Session) : Prop where
  placed : Placed c fast batch
  counted : Counted c.ifQueued c.soQueued (fast ++ batch)
  ordered : Ordered (fun m => c.serial (.mbuf m)) c.log c.sent (fast ++ batch)

section Calls
variable {ifm : Ptr}

theorem update_count (op : Int → Int → Int) (f : Sock → Int) (s : Sock) (h : ∀ x, op x 0 = x) :
    update f s (op (f s) 1) = fun t => op (f t) (if some s = some t then 1 else 0) := by
  funext t
  by_cases ht : t = s
  · simp [ht]
  · simp [update_of_ne ht, Ne.symm ht, h]

theorem countSent_eq (c : IfState) (ifm : Ptr) : ∃ nqueued, countSent c ifm = { c with
    soQueued := fun s => c.soQueued s - if c.ifqSo ifm = some s then 1 else 0
    soNqueued := nqueued } := by
  unfold countSent
  cases hs : c.ifqSo ifm with
  | none => exact ⟨c.soNqueued, by simp⟩
  | some s =>
    have hupd := update_count (· - ·) c.soQueued s (by simp)
    dsimp only
    split
    all_goals exact ⟨_, by rw [hupd]⟩

/-- What counting a packet in changes; the queues change if its session hogs the link. -/
theorem countQueued_eq (c : IfState) (so : Option Sock) (ifm : Ptr) : ∃ nqueued ifq, countQueued c so ifm = { c with
    ifQueued := c.ifQueued + 1
    soQueued := fun s => c.soQueued s + if so = some s then 1 else 0
    soNqueued := nqueued
    ifq := ifq } ∧
    (ifq = c.ifq ∨ ifq = (remque c.ifq (c.ifs.next ifm)).insert (c.ifs.next ifm) .batchq) := by
  unfold countQueued
  cases so with
  | none => exact ⟨c.soNqueued, c.ifq, by simp, .inl rfl⟩
  | some s =>
    have hupd := update_count (· + ·) c.soQueued s (by simp)
    dsimp only
    split
    · exact ⟨_, _, by rw [hupd], .inr rfl⟩
    · exact ⟨_, _, by rw [hupd], .inl rfl⟩

theorem dequeue_eq (c : IfState) (ifm : Ptr) : ∃ ifq ifs, dequeue c ifm = { c with
    ifq := ifq
    ifs := ifs
    ifQueued := c.ifQueued - 1 } := by
  unfold dequeue
  dsimp only
  split
  · exact ⟨_, _, rfl⟩
  · exact ⟨_, _, rfl⟩

theorem enqueue_eq (c : IfState) (so : Option Sock) (ifm : Ptr) (found : Option Ptr) :
    ∃ ifq ifs, enqueue c so ifm found = { c with ifq := ifq, ifs := ifs } := by
  cases found with
  | some q => exact ⟨_, _, rfl⟩
  | none =>
    apply iteInduction (motive := fun x : IfState => ∃ ifq ifs, x = { c with ifq := ifq, ifs := ifs })
    all_goals exact fun _ => ⟨_, _, rfl⟩

variable {ifQueued : Int} {soQueued : Sock → Int}

section
variable (h : Counted ifQueued soQueued all)
include h

theorem Counted.queue (hj : Joined all all' so m) :
    Counted (ifQueued + 1) (fun s => soQueued s + if so = some s then 1 else 0) all' := by
  constructor
  · rw [h.ifQueued, hj.perm.length_eq, length_cons]
    rfl
  · intro s
    rw [h.soQueued, hj.ofSock, length_append]
    by_cases he : so = some s
    · simp [he]
    · have he' : some s ≠ so := fun h' => he h'.symm
      simp [he, he']

theorem Counted.send {s : Session} (hl : Left all all' s) :
    Counted (ifQueued - 1) (fun t => soQueued t - if s.so = some t then 1 else 0) all' := by
  constructor
  · rw [h.ifQueued, hl.perm.length_eq, length_cons]
    omega
  · intro t
    rw [h.soQueued, hl.ofSock, length_append]
    by_cases he : s.so = some t
    · simp only [he, if_true, length_singleton]
      omega
    · have he' : some t ≠ s.so := fun h' => he h'.symm
      simp [he, he']

theorem Counted.congr (hp : ∀ so, pending all' so = pending all so)
    (hperm : (packets all').Perm (packets all)) : Counted ifQueued soQueued all' :=
  ⟨hperm.length_eq ▸ h.ifQueued, fun s => hp (some s) ▸ h.soQueued s⟩

end

theorem Good.sendOne (h : Good c fast batch) (hq : c.ifQueued ≠ 0) : ∃ c' fast' batch',
    sendOne c = .ok c' ∧ Good c' fast' batch' ∧ c'.ifQueued = c.ifQueued - 1 ∧ c'.log = c.log := by
  have hne : fast ++ batch ≠ [] := by
    intro he
    apply hq
    rw [h.counted.ifQueued, he]
    rfl
  obtain ⟨s, fast', batch', hs, hc, hp, hl⟩ := h.placed.dequeue_choose hne
  have hso : c.ifqSo s.ptr = s.so := h.placed.sessions.socks s hs s.head (by simp [Session.pkts])
  obtain ⟨ifq, ifs, hd⟩ := dequeue_eq { c with nextM := (choose c).2 } s.ptr
  rw [hd] at hp
  obtain ⟨nq, hcount⟩ := countSent_eq { c with
    nextM := (choose c).2
    ifq := ifq
    ifs := ifs
    ifQueued := c.ifQueued - 1 } s.ptr
  have hm : s.ptr = .mbuf s.head := rfl
  simp only [Slirp.sendOne, hc, hm]
  rw [← hm, hd, hcount]
  refine ⟨_, fast', batch', rfl, ⟨?_, ?_, ?_⟩, rfl, rfl⟩
  · exact ⟨hp.queues, hp.sessions, hp.head, hp.batchSocks, hp.nextM⟩
  · simp only [hso]
    exact h.counted.send hl
  · exact h.ordered.send hl

/-- The loop of `if_start`: it never meets a bad pointer, and empties the queues when it may
send as many packets as wait. -/
theorem Good.startLoop (answers : List Bool) : ∀ {c : IfState} {fast batch : List Session},
    Good c fast batch → c.ifQueued ≠ 0 → ∃ c' fast' batch',
      startLoop answers c = .ok c' ∧ Good c' fast' batch' ∧ c'.log = c.log ∧
      ((∀ a ∈ answers, a = true) → c.ifQueued ≤ answers.length → c'.ifQueued = 0) := by
  induction answers with
  | nil =>
    intro c fast batch h hq
    have hpos : 0 ≤ c.ifQueued := by
      rw [h.counted.ifQueued]
      omega
    refine ⟨c, fast, batch, rfl, h, rfl, fun _ hle => ?_⟩
    simp only [length_nil] at hle
    omega
  | cons a answers ih =>
    intro c fast batch h hq
    cases a with
    | false => exact ⟨c, fast, batch, rfl, h, rfl, fun ha => absurd (ha false (by simp)) (by simp)⟩
    | true =>
      obtain ⟨c₁, fast₁, batch₁, hs, hg, hn, hlog⟩ := h.sendOne hq
      by_cases h0 : c₁.ifQueued = 0
      · refine ⟨c₁, fast₁, batch₁, ?_, hg, hlog, fun _ _ => h0⟩
        simp only [Slirp.startLoop, hs]
        simp [Bind.bind, Except.bind, h0, Pure.pure, Except.pure]
      obtain ⟨c₂, fast₂, batch₂, hr, hg₂, hlog₂, hz⟩ := ih hg h0
      refine ⟨c₂, fast₂, batch₂, ?_, hg₂, hlog₂.trans hlog, ?_⟩
      · simp only [Slirp.startLoop, hs]
        simpa [Bind.bind, Except.bind, h0] using hr
      · intro ha hle
        apply hz (fun a h' => ha a (by simp [h']))
        rw [length_cons] at hle
        omega

theorem Good.ifStart (h : Good c fast batch) (answers : List Bool) : ∃ c' fast' batch',
    ifStart answers c = .ok c' ∧ Good c' fast' batch' ∧ c'.log = c.log ∧
    ((∀ a ∈ answers, a = true) → c.ifQueued ≤ answers.length → c'.ifQueued = 0) := by
  unfold Slirp.ifStart
  by_cases hq : c.ifQueued = 0
  · exact ⟨c, fast, batch, by rw [if_pos hq], h, rfl, fun _ _ => hq⟩
  · rw [if_neg hq]
    exact h.startLoop answers hq

theorem length_le_packets (all : List Session) : all.length ≤ (packets all).length := by
  induction all with
  | nil => simp
  | cons s all ih =>
    rw [packets_cons, length_append, length_cons]
    simp only [Session.pkts, length_cons]
    omega

section
variable (h : Good c fast batch) (hm : m ∉ packets (fast ++ batch))
include h hm

theorem Good.queue {found : Option Ptr}
    (hf : Found batch so found) : ∃ fast' batch', Good (countQueued { c.linked so m found with
      serial := update c.serial (.mbuf m) c.log.length
      log := c.log ++ [(so, m)] } so (.mbuf m)) fast' batch' := by
  obtain ⟨fast₁, batch₁, t, hp, hj, ht⟩ := h.placed.linked hm hf
  obtain ⟨ifq, ifs, hk⟩ := enqueue_eq c so (.mbuf m) found
  rw [IfState.linked, hk] at hp ⊢
  have hcounted := h.counted.queue hj
  have hordered : Ordered (fun x => update c.serial (.mbuf m) c.log.length (.mbuf x))
      (c.log ++ [(so, m)]) c.sent (fast₁ ++ batch₁) := by
    have hserial : (fun x => update c.serial (.mbuf m) c.log.length (.mbuf x)) =
        update (fun x => c.serial (.mbuf x)) m c.log.length := by
      funext x
      by_cases hx : x = m
      · simp [hx]
      · rw [update_of_ne hx, update_of_ne (by simpa using hx)]
    rw [hserial]
    exact h.ordered.queue hj hm
  obtain ⟨nq, ifq', hc, hifq⟩ := countQueued_eq { c with
    ifq := ifq
    ifs := ifs
    ifqSo := update c.ifqSo (.mbuf m) so
    serial := update c.serial (.mbuf m) c.log.length
    log := c.log ++ [(so, m)] } so (.mbuf m)
  rw [hc]
  rcases hifq with rfl | rfl
  · exact ⟨fast₁, batch₁, ⟨hp.queues, hp.sessions, hp.head, hp.batchSocks, hp.nextM⟩, hcounted, hordered⟩
  -- the session is moved to the front of the batch queue
  obtain ⟨fast₂, batch₂, hp₂, hpend, hperm⟩ := hp.demote ht
  have hnext : ifs.next (.mbuf m) = t.ptr := hp.next_home ht
  simp only [hnext]
  exact ⟨fast₂, batch₂, ⟨hp₂.queues, hp₂.sessions, hp₂.head, hp₂.batchSocks, hp₂.nextM⟩,
    hcounted.congr hpend (packets_perm hperm), hordered.congr hpend (packets_perm hperm)⟩

theorem Good.ifOutput (linkUp : Bool) (answers : List Bool) : ∃ c' fast' batch',
      ifOutput so m linkUp answers c = .ok c' ∧ Good c' fast' batch' := by
  have hfuel : batch.length < c.ifQueued.toNat + 1 := by
    have h₁ := length_le_packets (fast ++ batch)
    rw [h.counted.ifQueued, Int.toNat_natCast]
    rw [length_append] at h₁
    omega
  obtain ⟨found, hfind, hf⟩ := h.placed.findSession_spec so hfuel
  obtain ⟨fast₁, batch₁, hg⟩ := h.queue hm hf
  simp only [Slirp.ifOutput, hfind]
  cases linkUp with
  | true =>
    obtain ⟨c₂, fast₂, batch₂, hs, hg₂, -⟩ := hg.ifStart answers
    exact ⟨c₂, fast₂, batch₂, hs, hg₂⟩
  | false => exact ⟨_, fast₁, batch₁, rfl, hg⟩

end

end Calls

/-- An `mbuf` is in use for one packet at a time: it is queued again only when the packet it
carried has been sent. -/
def Legal (c : IfState) : Op → Prop
  | .output _ m _ _ => ∀ k ∈ unsent c.log c.sent, (c.log[k]?).map Prod.snd ≠ some m
  | _ => True

instance (c : IfState) (op : Op) : Decidable (Legal c op) :=
  match op with
  | .output _ m _ _ =>
    inferInstanceAs (Decidable (∀ k ∈ unsent c.log c.sent, (c.log[k]?).map Prod.snd ≠ some m))
  | .start _ => .isTrue trivial
  | .setTos _ _ => .isTrue trivial

/-- What is wanted of the queues. A packet is sent once at most. The packets that are not sent
wait on the queues, and are sent if the other side takes them. The packets of a socket are
sent in the order they were queued. The counters count the packets that are not sent, and the
cursor is on the batch queue. No call fails. -/
structure Delivered (c : IfState) : Prop where
  once : c.sent.Nodup
  known : ∀ k ∈ c.sent, k < c.log.length
  inOrder : ∀ so, sentOf c.log c.sent so <+: queuedOf c.log so
  ifQueued : c.ifQueued = (unsent c.log c.sent).length
  soQueued : ∀ s, c.soQueued s = ((unsent c.log c.sent).filter (ofSock c.log (some s))).length
  waiting : ∃ fast batch, Queues c.ifq fast batch ∧ Sessions c.ifs c.ifqSo (fast ++ batch) ∧
    ((packets (fast ++ batch)).map fun m => c.serial (.mbuf m)).Perm (unsent c.log c.sent) ∧
    (c.nextM = .batchq ∨ ∃ s ∈ batch, c.nextM = s.ptr)
  drained : ∀ answers, (∀ a ∈ answers, a = true) → c.ifQueued ≤ answers.length →
    ∃ c', ifStart answers c = .ok c' ∧ c'.log = c.log ∧ unsent c'.log c'.sent = []
  faultless : ∀ op, Legal c op → ∃ c', step c op = .ok c'

section Runs

theorem Good.notMem_of_legal (h : Good c fast batch) {linkUp : Bool}
    {answers : List Bool} (hl : Legal c (.output so m linkUp answers)) : m ∉ packets (fast ++ batch) :=
  fun hm => hl _ (h.ordered.serial_unsent hm) (h.ordered.owner m hm)

/-- Every call goes through and keeps the invariant. -/
theorem Good.step (h : Good c fast batch) {op : Op} (hl : Legal c op) :
    ∃ c' fast' batch', step c op = .ok c' ∧ Good c' fast' batch' := by
  cases op with
  | output so m linkUp answers => exact h.ifOutput (h.notMem_of_legal hl) linkUp answers
  | start answers =>
    obtain ⟨c', fast', batch', hs, hg, -⟩ := h.ifStart answers
    exact ⟨c', fast', batch', hs, hg⟩
  | setTos s low =>
    obtain ⟨⟨hq, hs, hh, hb, hn⟩, hc, ho⟩ := h
    exact ⟨_, fast, batch, rfl, ⟨hq, hs, hh, hb, hn⟩, hc, ho⟩

theorem Good.init (h : Initial c) : Good c [] [] := by
  have hring : ∀ p, c.ifq.next p = p → c.ifq.prev p = p → Circular c.ifq p [] := by
    intro p hn hp
    exact ⟨by simp, isChain_cons_cons.2 ⟨⟨hn, hp⟩, isChain_singleton _⟩⟩
  refine ⟨⟨⟨hring _ h.fastq.1 h.fastq.2, hring _ h.batchq.1 h.batchq.2⟩, ?_, h.head, by simp, ?_⟩,
    ⟨h.ifQueued, h.soQueued⟩, ⟨?_, ?_, ?_⟩⟩
  · exact ⟨by simp, by simp, nodup_nil⟩
  · simp [h.nextM]
  · intro so
    simp [h.log, h.sent, sentOf, queuedOf]
  · simp [h.sent]
  · simp

theorem Good.delivered (h : Good c fast batch) : Delivered c := by
  have hperm := h.ordered.unsent_perm h.placed.sessions.distinct
  refine ⟨h.ordered.sent_nodup, h.ordered.known, fun so => ⟨_, h.ordered.order so⟩, ?_, ?_, ?_, ?_, ?_⟩
  · rw [h.counted.ifQueued, ← hperm.length_eq, length_map]
  · intro s
    rw [h.counted.soQueued, ← h.ordered.pending_eq, length_map]
  · refine ⟨fast, batch, h.placed.queues, h.placed.sessions, hperm, ?_⟩
    rcases mem_cons.1 h.placed.nextM with hn | hn
    · exact .inl hn
    · obtain ⟨s, hs, he⟩ := mem_map.1 hn
      exact .inr ⟨s, hs, he.symm⟩
  · intro answers hall hlen
    obtain ⟨c', fast', batch', hs, hg, hlog, hz⟩ := h.ifStart answers
    refine ⟨c', hs, hlog, ?_⟩
    have hlen := (hg.ordered.unsent_perm hg.placed.sessions.distinct).length_eq
    rw [length_map] at hlen
    have h0 := hg.counted.ifQueued
    rw [hz hall (by assumption)] at h0
    exact eq_nil_of_length_eq_zero (by omega)
  · intro op hl
    obtain ⟨c', -, -, hs, -⟩ := h.step hl
    exact ⟨c', hs⟩

/-- In every run the queues deliver. -/
theorem delivered_of_reach (h : Reach Initial (fun c op c' => Legal c op ∧ step c op = .ok c') c) : Delivered c := by
  have hg : ∃ fast batch, Good c fast batch := by
    apply h.invariant
    · intro c hc
      exact ⟨[], [], Good.init hc⟩
    · intro c op c' hI hn
      obtain ⟨fast, batch, hg⟩ := hI
      obtain ⟨c₁, fast', batch', hs, hg'⟩ := hg.step hn.1
      have he : c₁ = c' := by
        rw [hs] at hn
        exact Except.ok.inj hn.2
      exact ⟨fast', batch', he ▸ hg'⟩
  obtain ⟨fast, batch, hg⟩ := hg
  exact hg.delivered

def idle : IfState where
  ifq := ⟨id, id⟩
  ifs := ⟨id, id⟩
  ifqSo := fun _ => none
  ifQueued := 0
  nextM := .batchq
  soQueued := fun _ => 0
  soNqueued := fun _ => 0
  lowDelay := fun s => decide (s = 0)
  serial := fun _ => 0
  log := []
  sent := []

/-- Three packets are queued and two sent: the fast queue is served before the batch queue. -/
theorem idle_delivered : ∃ c, c.log = [(some 1, 4), (some 0, 5), (some 1, 6)] ∧ c.sent = [1, 0] ∧ Delivered c := by
  have h₀ : Reach Initial (fun c op c' => Legal c op ∧ step c op = .ok c') idle :=
    .start ⟨⟨rfl, rfl⟩, ⟨rfl, rfl⟩, rfl, rfl, rfl, fun _ => rfl, rfl, rfl⟩
  have h₁ := h₀.step (a := .output (some 1) 4 false []) ⟨by decide, rfl⟩
  have h₂ := h₁.step (a := .output (some 0) 5 false []) ⟨by decide, rfl⟩
  have h₃ := h₂.step (a := .output (some 1) 6 true [true, true]) ⟨by decide, rfl⟩
  exact ⟨_, rfl, rfl, delivered_of_reach h₃⟩

end Runs

end GemDroid.Slirp
