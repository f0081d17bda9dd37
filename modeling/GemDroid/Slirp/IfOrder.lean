import GemDroid.Slirp.IfSessions
import GemDroid.Lib.Reach

/-! Packets leave in the order they came.

`Placed` reads the links of a state as two lists of sessions. Queueing a packet makes it the
last one of its socket, moving a session to the batch queue changes the order of no socket,
and what is sent is the first packet of its socket. So for each socket the packets sent,
followed by those that wait, are the packets queued, in order. -/
namespace GemDroid.Slirp
open Lib Function List Session

variable {fast batch A B B₁ B₂ X F : List Session} {so : Option Sock} {s t : Session} {c : IfState}
  {m : Nat}

/-- The links and the cursor of the queues describe two lists of sessions. A socket has one
session at most on the batch queue, and any number on the fast one. -/
structure Placed (c : IfState) (fast batch : List Session) : Prop where
  queues : Queues c.ifq fast batch
  sessions : Sessions c.ifs c.ifqSo (fast ++ batch)
  head : c.ifqSo .fastq = none
  batchSocks : (batch.map Session.so).Nodup
  nextM : c.nextM ∈ Ptr.batchq :: batch.map Session.ptr

section Find

/-- What the search of the batch queue finds. -/
def Found (batch : List Session) (so : Option Sock) (found : Option Ptr) : Prop :=
  (∃ B₁ s B₂, batch = B₁ ++ s :: B₂ ∧ s.so = so ∧ found = some s.ptr) ∨ (∀ s ∈ batch, s.so ≠ so) ∧ found = none

/-- The search goes from the end of the queue to its head: the sessions behind the cursor are
not those of the socket. -/
theorem Placed.findSession_from (h : Placed c fast batch) (B₁ : List Session) :
    ∀ {B₂ : List Session} {fuel : Nat}, batch = B₁ ++ B₂ → (∀ s ∈ B₂, s.so ≠ so) → B₁.length < fuel → ∃ found,
        findSession c so fuel ((Ptr.batchq :: B₁.map ptr).getLast (by simp)) = .ok found ∧ Found batch so found := by
  induction B₁ using List.reverseRecOn with
  | nil =>
    intro B₂ fuel hb hne hf
    obtain ⟨n, rfl⟩ : ∃ n, fuel = n + 1 := ⟨fuel - 1, by omega⟩
    have hb' : batch = B₂ := hb
    exact ⟨none, by simp [findSession], .inr ⟨by rwa [hb'], rfl⟩⟩
  | append_singleton B₁ s ih =>
    intro B₂ fuel hb hne hf
    obtain ⟨n, rfl⟩ : ∃ n, fuel = n + 1 := ⟨fuel - 1, by omega⟩
    rw [length_append, length_singleton] at hf
    have hb' : batch = B₁ ++ s :: B₂ := by simpa using hb
    have hcur : (Ptr.batchq :: (B₁ ++ [s]).map ptr).getLast (by simp) = s.ptr := by simp
    have hso : c.ifqSo s.ptr = s.so :=
      h.sessions.socks s (by simp [hb']) s.head (by simp [pkts])
    rw [hcur, findSession, if_neg (by simp [ptr]), hso]
    by_cases he : s.so = so
    · exact ⟨some s.ptr, by rw [if_pos he], .inl ⟨B₁, s, B₂, hb', he, rfl⟩⟩
    · have hring : Circular c.ifq .batchq (B₁.map ptr ++ s.ptr :: B₂.map ptr) := by
        simpa [hb'] using h.queues.batchRing
      rw [if_neg he, hring.prev_at]
      exact ih hb' (by simpa using ⟨he, hne⟩) (by omega)

theorem Placed.findSession_spec (h : Placed c fast batch) (so : Option Sock) {fuel : Nat}
    (hf : batch.length < fuel) : ∃ found,
      findSession c so fuel (c.ifq.prev .batchq) = .ok found ∧ Found batch so found := by
  have hlast : c.ifq.prev .batchq = (Ptr.batchq :: batch.map ptr).getLast (by simp) := by
    rw [h.queues.batchRing.prev_head, getLast_eq_getLastD, getLastD_eq_getLast?]
  rw [hlast]
  exact h.findSession_from batch (append_nil batch).symm (by simp) hf

end Find

structure Joined (all all' : List Session) (so : Option Sock) (m : Nat) : Prop where
  ofSock : ∀ so', pending all' so' = pending all so' ++ if so' = so then [m] else []
  perm : (packets all').Perm (m :: packets all)

/-- The session a packet has come to last: the last one of the fast queue, if the batch queue
has none of its socket, or one of the batch queue. -/
structure Home (fast batch : List Session) (t : Session) (m : Nat) : Prop where
  last : t.pkts.getLast (by simp [Session.pkts]) = m
  place : (∃ F, fast = F ++ [t] ∧ ∀ s ∈ batch, s.so ≠ t.so) ∨ ∃ B₁ B₂, batch = B₁ ++ t :: B₂

section Joined

theorem add_last : (s.add m).pkts.getLast (by simp [pkts]) = m := by
  simp [add, pkts]

theorem add_so : (s.add m).so = s.so := rfl

theorem add_ptr : (s.add m).ptr = s.ptr := rfl

theorem Joined.between {Y : List Session} (h : ∀ t ∈ B, t.so ≠ so)
    (hpend : ∀ so', pending Y so' = pending X so' ++ if so' = so then [m] else [])
    (hpkts : packets Y = packets X ++ [m]) : Joined (A ++ (X ++ B)) (A ++ (Y ++ B)) so m := by
  constructor
  · intro so'
    simp only [pending_append, hpend, append_assoc]
    by_cases he : so' = so
    · simp [he, pending_eq_nil h]
    · simp [he]
  · simp only [packets_append, hpkts, append_assoc, singleton_append]
    rw [← append_assoc, ← append_assoc]
    exact perm_middle

theorem Joined.add (h : ∀ t ∈ B, t.so ≠ s.so) : Joined (A ++ s :: B) (A ++ s.add m :: B) s.so m := by
  refine between (X := [s]) (Y := [s.add m]) h (fun so' => ?_) (by simp [Session.add, Session.pkts])
  by_cases he : s.so = so'
  · simp [pending, Session.add, Session.pkts, he]
  · simp [pending, Session.add, he, Ne.symm he]

theorem Joined.new (h : ∀ t ∈ B, t.so ≠ so) : Joined (A ++ B) (A ++ ⟨so, m, []⟩ :: B) so m := by
  refine between (X := []) (Y := [⟨so, m, []⟩]) h (fun so' => ?_) rfl
  by_cases he : so = so'
  · simp [pending, pkts, he]
  · simp [pending, he, Ne.symm he]

end Joined

section Queue
variable {found : Option Ptr}

abbrev IfState.linked (c : IfState) (so : Option Sock) (m : Nat) (found : Option Ptr) : IfState :=
  { enqueue c so (.mbuf m) found with ifqSo := Function.update c.ifqSo (.mbuf m) so }

theorem update_head (h : Placed c fast batch) (m : Nat) (so : Option Sock) :
    update c.ifqSo (.mbuf m) so .fastq = none :=
  (update_of_ne (by simp) _ _).trans h.head

theorem linked_fast {s : Sock} (hl : c.lowDelay s = true) (hq : c.ifqSo (c.ifq.prev .fastq) = some s) :
    c.linked (some s) m none = { c with
      ifs := c.ifs.insert (.mbuf m) (c.ifs.prev (c.ifq.prev .fastq))
      ifqSo := update c.ifqSo (.mbuf m) (some s) } := by
  simp [IfState.linked, enqueue, hl, hq]

theorem linked_newFast {s : Sock} (hl : c.lowDelay s = true) (hq : c.ifqSo (c.ifq.prev .fastq) ≠ some s) :
    c.linked (some s) m none = { c with
      ifs := c.ifs.single (.mbuf m)
      ifq := c.ifq.insert (.mbuf m) (c.ifq.prev .fastq)
      ifqSo := update c.ifqSo (.mbuf m) (some s) } := by
  simp [IfState.linked, enqueue, hl, hq]

theorem linked_newBatch (hl : ∀ s, so = some s → c.lowDelay s = false) : c.linked so m none = { c with
      ifs := c.ifs.single (.mbuf m)
      ifq := c.ifq.insert (.mbuf m) (c.ifq.prev .batchq)
      ifqSo := update c.ifqSo (.mbuf m) so } := by
  cases so with
  | none => simp [IfState.linked, enqueue]
  | some s => simp [IfState.linked, enqueue, hl s rfl]

theorem Placed.joinBatch (h : Placed c fast (B₁ ++ s :: B₂)) (hm : m ∉ packets (fast ++ (B₁ ++ s :: B₂))) :
    Placed { c with
      ifs := c.ifs.insert (.mbuf m) (c.ifs.prev s.ptr)
      ifqSo := update c.ifqSo (.mbuf m) s.so } fast (B₁ ++ s.add m :: B₂) := by
  have hp : ∀ x : Session, (fast ++ (B₁ ++ x :: B₂)).Perm (x :: (fast ++ (B₁ ++ B₂))) :=
    fun x => (List.Perm.append_left fast perm_middle).trans perm_middle
  have hm' : m ∉ packets (s :: (fast ++ (B₁ ++ B₂))) :=
    fun h' => hm ((packets_perm (hp s)).mem_iff.2 h')
  refine ⟨⟨h.queues.fastRing, ?_⟩, ?_, update_head h m s.so, ?_, ?_⟩
  · simpa [add_ptr] using h.queues.batchRing
  · exact ((h.sessions.perm (hp s)).add hm').perm (hp _).symm
  · simpa [add_so] using h.batchSocks
  · simpa [add_ptr] using h.nextM

theorem Placed.joinFast (h : Placed c (F ++ [s]) batch) (hm : m ∉ packets (F ++ [s] ++ batch)) : Placed { c with
      ifs := c.ifs.insert (.mbuf m) (c.ifs.prev s.ptr)
      ifqSo := update c.ifqSo (.mbuf m) s.so } (F ++ [s.add m]) batch := by
  have hp : ∀ x : Session, (F ++ [x] ++ batch).Perm (x :: (F ++ batch)) := by
    intro x
    rw [append_assoc]
    exact perm_middle
  have hm' : m ∉ packets (s :: (F ++ batch)) := fun h' => hm ((packets_perm (hp s)).mem_iff.2 h')
  refine ⟨⟨?_, h.queues.batchRing⟩, ?_, update_head h m s.so, h.batchSocks, h.nextM⟩
  · simpa [add_ptr] using h.queues.fastRing
  · exact ((h.sessions.perm (hp s)).add hm').perm (hp _).symm

section
variable (h : Placed c fast batch) (hm : m ∉ packets (fast ++ batch))
include h hm

theorem Placed.newFast : Placed { c with
      ifs := c.ifs.single (.mbuf m)
      ifq := c.ifq.insert (.mbuf m) (c.ifq.prev .fastq)
      ifqSo := update c.ifqSo (.mbuf m) so } (fast ++ [⟨so, m, []⟩]) batch := by
  refine ⟨h.queues.pushFast h.sessions.distinct hm so, ?_, update_head h m so, h.batchSocks, h.nextM⟩
  have hp : (⟨so, m, []⟩ :: (fast ++ batch) : List Session).Perm (fast ++ [⟨so, m, []⟩] ++ batch) := by
    rw [append_assoc]
    exact perm_middle.symm
  exact (h.sessions.new hm).perm hp

theorem Placed.newBatch (hso : ∀ s ∈ batch, s.so ≠ so) : Placed { c with
      ifs := c.ifs.single (.mbuf m)
      ifq := c.ifq.insert (.mbuf m) (c.ifq.prev .batchq)
      ifqSo := update c.ifqSo (.mbuf m) so } fast (batch ++ [⟨so, m, []⟩]) := by
  refine ⟨h.queues.pushBatch h.sessions.distinct hm so, ?_, update_head h m so, ?_, ?_⟩
  · have hp : (⟨so, m, []⟩ :: (fast ++ batch) : List Session).Perm (fast ++ (batch ++ [⟨so, m, []⟩])) := by
      rw [← append_assoc]
      exact (perm_append_singleton _ _).symm
    exact (h.sessions.new hm).perm hp
  · rw [map_append, map_singleton, nodup_append]
    refine ⟨h.batchSocks, by simp, ?_⟩
    intro a ha b hb
    obtain ⟨t, ht, rfl⟩ := mem_map.1 ha
    rw [mem_singleton.1 hb]
    exact hso t ht
  · have := h.nextM
    simp only [map_append, mem_cons, mem_append] at this ⊢
    exact this.imp_right .inl

end

theorem Placed.alone (h : Placed c fast (B₁ ++ s :: B₂)) : ∀ t ∈ B₁ ++ B₂, t.so ≠ s.so := by
  intro t ht
  have hp : ((B₁ ++ s :: B₂).map so).Perm (s.so :: (B₁ ++ B₂).map so) :=
    perm_middle.map so
  have hd := nodup_cons.1 (hp.nodup h.batchSocks)
  intro he
  exact hd.1 (he ▸ mem_map_of_mem ht)

section
variable (h : Placed c fast batch)
include h

theorem Placed.linked (hm : m ∉ packets (fast ++ batch))
    (hf : Found batch so found) : ∃ fast' batch' t, Placed (c.linked so m found) fast' batch' ∧
      Joined (fast ++ batch) (fast' ++ batch') so m ∧ Home fast' batch' t m := by
  rcases hf with ⟨B₁, s, B₂, rfl, rfl, rfl⟩ | ⟨hne, rfl⟩
  · refine ⟨fast, B₁ ++ s.add m :: B₂, s.add m, h.joinBatch hm, ?_, add_last, .inr ⟨B₁, B₂, rfl⟩⟩
    rw [← append_assoc, ← append_assoc]
    exact Joined.add fun t ht => h.alone t (by simp [ht])
  by_cases hlow : ∃ s, so = some s ∧ c.lowDelay s = true
  · obtain ⟨s, rfl, hl⟩ := hlow
    by_cases hq : c.ifqSo (c.ifq.prev .fastq) = some s
    · -- the last session of the fast queue is the socket's
      rcases eq_nil_or_concat fast with rfl | ⟨F, t, hF⟩
      · rw [h.queues.fastRing.prev_head] at hq
        exact absurd (h.head.symm.trans hq) (by simp)
      rw [concat_eq_append] at hF
      subst hF
      have hprev : c.ifq.prev .fastq = t.ptr := by
        rw [h.queues.fastRing.prev_head]
        simp
      have hso : t.so = some s := by
        rw [hprev] at hq
        exact (h.sessions.socks t (by simp) t.head (by simp [pkts])).symm.trans hq
      refine ⟨F ++ [t.add m], batch, t.add m, ?_, ?_, add_last,
        .inl ⟨F, rfl, fun x hx => by rw [add_so, hso]; exact hne x hx⟩⟩
      · rw [linked_fast hl hq, hprev, ← hso]
        exact h.joinFast hm
      · rw [← hso] at hne ⊢
        rw [append_assoc, append_assoc]
        exact Joined.add hne
    · refine ⟨fast ++ [⟨some s, m, []⟩], batch, ⟨some s, m, []⟩, ?_, ?_, rfl, .inl ⟨fast, rfl, hne⟩⟩
      · rw [linked_newFast hl hq]
        exact h.newFast hm
      · rw [append_assoc]
        exact Joined.new hne
  · refine ⟨fast, batch ++ [⟨so, m, []⟩], ⟨so, m, []⟩, ?_, ?_, rfl, .inr ⟨batch, [], rfl⟩⟩
    · have hl : ∀ s, so = some s → c.lowDelay s = false := by simpa using hlow
      rw [linked_newBatch hl]
      exact h.newBatch hm hne
    · have hj : Joined ((fast ++ batch) ++ []) ((fast ++ batch) ++ ⟨so, m, []⟩ :: []) so m :=
        Joined.new (by simp)
      simpa using hj

theorem Placed.next_home (ht : Home fast batch t m) : c.ifs.next (.mbuf m) = t.ptr := by
  have hmem : t ∈ fast ++ batch := by
    rcases ht.place with ⟨F, rfl, -⟩ | ⟨B₁, B₂, rfl⟩ <;> simp
  have hring := h.sessions.rings t hmem
  have hlast := ht.last
  rcases eq_nil_or_concat t.rest with hr | ⟨init, x, hr⟩
  · simp only [pkts, hr, getLast_singleton] at hlast
    rw [hr] at hring
    rw [← hlast]
    exact hring.next_head
  rw [concat_eq_append] at hr
  simp only [pkts, hr] at hlast
  rw [hr, map_append] at hring
  have hx : x = m := by simpa using hlast
  rw [← hx]
  exact hring.next_at

theorem Placed.demote (ht : Home fast batch t m) :
    ∃ fast' batch', Placed { c with ifq := (remque c.ifq t.ptr).insert t.ptr .batchq } fast' batch' ∧
      (∀ so, pending (fast' ++ batch') so = pending (fast ++ batch) so) ∧
      (fast' ++ batch').Perm (fast ++ batch) := by
  rcases ht.place with ⟨F, rfl, hne⟩ | ⟨B₁, B₂, rfl⟩
  · have he : F ++ t :: batch = F ++ [t] ++ batch := by simp
    refine ⟨F, t :: batch, ⟨h.queues.demoteFast h.sessions.distinct, ?_, h.head, ?_, ?_⟩, ?_, ?_⟩
    · exact he ▸ h.sessions
    · rw [map_cons, nodup_cons]
      refine ⟨fun hx => ?_, h.batchSocks⟩
      obtain ⟨s, hs, hso⟩ := mem_map.1 hx
      exact hne s hs hso
    · have := h.nextM
      simp only [map_cons, mem_cons] at this ⊢
      tauto
    · intro so
      rw [he]
    · rw [he]
  have hp : (fast ++ t :: (B₁ ++ B₂)).Perm (fast ++ (B₁ ++ t :: B₂)) :=
    List.Perm.append_left fast perm_middle.symm
  refine ⟨fast, t :: (B₁ ++ B₂), ⟨h.queues.demoteBatch h.sessions.distinct, h.sessions.perm hp.symm,
    h.head, ?_, ?_⟩, ?_, hp⟩
  · exact (perm_middle.map so).nodup h.batchSocks
  · have := h.nextM
    simp only [map_cons, map_append, mem_cons, mem_append] at this ⊢
    tauto
  · intro so
    have hal := h.alone
    by_cases hso : t.so = so
    · subst hso
      have h₁ : pending B₁ t.so = [] := pending_eq_nil fun s hs => hal s (by simp [hs])
      have h₂ : pending B₂ t.so = [] := pending_eq_nil fun s hs => hal s (by simp [hs])
      simp [pending_cons_self, h₁, h₂]
    · simp [pending_cons_of_ne hso]

end

end Queue

structure Left (all all' : List Session) (s : Session) : Prop where
  ofSock : ∀ so, pending all so = (if so = s.so then [s.head] else []) ++ pending all' so
  perm : (packets all).Perm (s.head :: packets all')

section Send
variable {all all' : List Session} {x : Nat} {xs : List Nat} {n : Ptr}

theorem Left.between (h : ∀ t ∈ A, t.so ≠ s.so)
    (hpend : ∀ so, pending X so = if so = s.so then s.rest else []) (hpkts : packets X = s.rest) :
    Left (A ++ s :: B) (A ++ (X ++ B)) s := by
  constructor
  · intro so
    by_cases he : so = s.so
    · subst he
      simp [pending_cons_self, pending_eq_nil h, pkts, hpend]
    · simp [pending_cons_of_ne (Ne.symm he), hpend, he]
  · simp only [packets_append, packets_cons, hpkts, pkts, cons_append]
    exact perm_middle

/-- The only packet of a session goes, and no earlier session is of its socket. -/
theorem Left.last (h : ∀ t ∈ A, t.so ≠ s.so) (hr : s.rest = []) : Left (A ++ s :: B) (A ++ B) s :=
  Left.between (X := []) h (fun so => by simp [hr, pending]) hr.symm

/-- The first packet of a session goes, and no earlier session is of its socket. -/
theorem Left.more (h : ∀ t ∈ A, t.so ≠ s.so) (hr : s.rest = x :: xs) :
    Left (A ++ s :: B) (A ++ ⟨s.so, x, xs⟩ :: B) s := by
  refine Left.between (X := [⟨s.so, x, xs⟩]) h (fun so => ?_) (by simp [hr, pkts])
  by_cases he : s.so = so
  · simp [pending, pkts, hr, he]
  · simp [pending, he, Ne.symm he]

section
variable (hr : Circular c.ifs s.ptr (s.rest.map .mbuf))
include hr

theorem dequeue_last (hs : s.rest = []) :
    dequeue c s.ptr = { c with ifq := remque c.ifq s.ptr, ifQueued := c.ifQueued - 1 } := by
  rw [hs] at hr
  have hn : c.ifs.next s.ptr = s.ptr := hr.next_head
  simp [dequeue, hn]

theorem dequeue_more (hs : s.rest = x :: xs) : dequeue c s.ptr = { c with
      ifq := (remque c.ifq s.ptr).insert (.mbuf x) (c.ifq.prev s.ptr)
      ifs := c.ifs.remove s.ptr
      ifQueued := c.ifQueued - 1 } := by
  rw [hs] at hr
  have hn : c.ifs.next s.ptr = .mbuf x := hr.next_head
  have hne : Ptr.mbuf x ≠ s.ptr := by
    intro he
    exact (nodup_cons.1 hr.nodup).1 (by simp [← he])
  simp [dequeue, hn, hne]

end

theorem Placed.dequeueFast (h : Placed c (s :: F) batch) : ∃ fast',
    Placed (dequeue c s.ptr) fast' batch ∧ Left (s :: F ++ batch) (fast' ++ batch) s := by
  have hring := h.sessions.rings s (by simp)
  cases hs : s.rest with
  | nil =>
    refine ⟨F, ?_, Left.last (A := []) (by simp) hs⟩
    rw [dequeue_last hring hs]
    exact ⟨h.queues.popFast h.sessions.distinct, h.sessions.tail, h.head, h.batchSocks, h.nextM⟩
  | cons x xs =>
    refine ⟨⟨s.so, x, xs⟩ :: F, ?_, Left.more (A := []) (by simp) hs⟩
    rw [dequeue_more hring hs]
    have hpop := Sessions.pop h.sessions hs
    exact ⟨h.queues.nextFast h.sessions.distinct hpop.distinct, hpop, h.head, h.batchSocks, h.nextM⟩

/-- A packet leaves the batch queue, and the cursor goes to the session behind it. -/
theorem Placed.dequeueBatch (h : Placed c [] (B₁ ++ s :: B₂)) : ∃ batch',
    Placed (dequeue { c with nextM := c.ifq.next s.ptr } s.ptr) [] batch' ∧ Left (B₁ ++ s :: B₂) batch' s := by
  have hring := h.sessions.rings s (by simp)
  have hbatch : Circular c.ifq .batchq (B₁.map ptr ++ s.ptr :: B₂.map ptr) := by
    simpa using h.queues.batchRing
  have hnext : c.ifq.next s.ptr ∈ Ptr.batchq :: B₂.map ptr := by
    rw [hbatch.next_at]
    exact (perm_append_singleton _ _).mem_iff.1 (head_mem _)
  have hfirst : ∀ t ∈ B₁, t.so ≠ s.so := fun t ht => h.alone t (by simp [ht])
  have hp : ([] ++ (B₁ ++ s :: B₂)).Perm (s :: (B₁ ++ B₂)) := perm_middle
  have hsess := h.sessions.perm hp
  have hsock := (perm_middle.map so).nodup h.batchSocks
  cases hs : s.rest with
  | nil =>
    refine ⟨B₁ ++ B₂, ?_, Left.last hfirst hs⟩
    rw [dequeue_last (c := { c with nextM := c.ifq.next s.ptr }) hring hs]
    refine ⟨h.queues.popBatch h.sessions.distinct, hsess.tail, h.head, ?_, ?_⟩
    · exact (nodup_cons.1 hsock).2
    · show c.ifq.next s.ptr ∈ _
      simp only [map_append, mem_cons, mem_append] at hnext ⊢
      tauto
  | cons x xs =>
    refine ⟨B₁ ++ ⟨s.so, x, xs⟩ :: B₂, ?_, Left.more hfirst hs⟩
    rw [dequeue_more (c := { c with nextM := c.ifq.next s.ptr }) hring hs]
    have hpop := hsess.pop hs
    refine ⟨h.queues.nextBatch h.sessions.distinct hpop.distinct, hpop.perm perm_middle.symm, h.head, ?_, ?_⟩
    · exact (perm_middle.map so).symm.nodup hsock
    · show c.ifq.next s.ptr ∈ _
      simp only [map_append, map_cons, mem_cons, mem_append] at hnext ⊢
      tauto

theorem Placed.choose_fast (h : Placed c (s :: F) batch) : choose c = (s.ptr, c.nextM) := by
  have hn : c.ifq.next .fastq = s.ptr := h.queues.fastRing.next_head
  simp [choose, hn, ptr]

/-- When the fast queue is empty, the batch queue is served from the cursor on. -/
theorem Placed.choose_batch (h : Placed c [] batch) (hb : batch ≠ []) : ∃ B₁ s B₂,
    batch = B₁ ++ s :: B₂ ∧ choose c = (s.ptr, c.ifq.next s.ptr) := by
  have hn : c.ifq.next .fastq = .fastq := h.queues.fastRing.next_head
  by_cases hc : c.nextM = .batchq
  · obtain ⟨s, B, rfl⟩ := exists_cons_of_ne_nil hb
    have hs : c.ifq.next .batchq = s.ptr := h.queues.batchRing.next_head
    exact ⟨[], s, B, rfl, by simp [choose, hn, hc, hs]⟩
  · have hmem := (mem_cons.1 h.nextM).resolve_left hc
    obtain ⟨s, hs, he⟩ := mem_map.1 hmem
    obtain ⟨B₁, B₂, rfl⟩ := append_of_mem hs
    exact ⟨B₁, s, B₂, rfl, by simp [choose, hn, hc, he]⟩

/-- A round of `if_start` takes the first packet of a session, which is the first of its
socket, off its queue. -/
theorem Placed.dequeue_choose (h : Placed c fast batch) (hne : fast ++ batch ≠ []) :
    ∃ s fast' batch', s ∈ fast ++ batch ∧ (choose c).1 = s.ptr ∧
      Placed (dequeue { c with nextM := (choose c).2 } s.ptr) fast' batch' ∧
      Left (fast ++ batch) (fast' ++ batch') s := by
  cases fast with
  | cons s F =>
    obtain ⟨fast', hp, hl⟩ := h.dequeueFast
    refine ⟨s, fast', batch, by simp, by rw [h.choose_fast], ?_, hl⟩
    rw [h.choose_fast]
    exact hp
  | nil =>
    obtain ⟨B₁, s, B₂, rfl, hc⟩ := h.choose_batch hne
    obtain ⟨batch', hp, hl⟩ := h.dequeueBatch
    refine ⟨s, [], batch', by simp, by rw [hc], ?_, hl⟩
    rw [hc]
    exact hp

end Send

end GemDroid.Slirp
