import GemDroid.Slirp.IfQueue
import Mathlib.Data.List.Flatten

/-! What waits on the output queues.

The links of the packets describe two lists of sessions, `fast` and `batch`, and each
session a list of packets. `Sessions` ties the rings of packets to their sessions, `Queues`
the two queues to theirs. Queueing a packet and sending one are followed through on the
lists, where it can be read off that the packets of a socket keep their order. -/
namespace GemDroid.Slirp
open Lib Function List Ptr

variable {m : Nat}

variable {so : Option Sock} {p : Ptr}

/-- The packets of one session that wait: never none. -/
structure Session where
  so : Option Sock
  head : Nat
  rest : List Nat

variable {all all' A B : List Session} {s t : Session}

open Session

namespace Session

def pkts (s : Session) : List Nat := s.head :: s.rest

/-- The packet that stands for the session on its queue. -/
def ptr (s : Session) : Ptr := .mbuf s.head

def add (s : Session) (m : Nat) : Session := { s with rest := s.rest ++ [m] }

end Session

def packets (all : List Session) : List Nat := all.flatMap Session.pkts

def pending (all : List Session) (so : Option Sock) : List Nat :=
  packets (all.filter fun s => decide (s.so = so))

section Lists

@[simp] theorem packets_append : packets (A ++ B) = packets A ++ packets B := by simp [packets]
@[simp] theorem packets_cons : packets (s :: A) = s.pkts ++ packets A := by simp [packets]
@[simp] theorem packets_nil : packets [] = [] := rfl

@[simp] theorem pending_append : pending (A ++ B) so = pending A so ++ pending B so := by
  simp [pending]

theorem pending_cons_self : pending (s :: A) s.so = s.pkts ++ pending A s.so := by
  simp [pending]

theorem pending_cons_of_ne (h : s.so ≠ so) : pending (s :: A) so = pending A so := by
  simp [pending, h]

@[simp] theorem pending_nil : pending [] so = [] := rfl

theorem pending_eq_nil (h : ∀ s ∈ A, s.so ≠ so) : pending A so = [] := by
  have : A.filter (fun s => decide (s.so = so)) = [] := by
    rw [filter_eq_nil_iff]
    intro s hs
    simpa using h s hs
  rw [pending, this, packets_nil]

theorem mem_packets : m ∈ packets all ↔ ∃ s ∈ all, m ∈ s.pkts := by simp [packets]

theorem mem_packets_head (h : s ∈ all) : s.head ∈ packets all :=
  mem_packets.2 ⟨s, h, by simp [pkts]⟩

theorem packets_perm (h : all.Perm all') : (packets all).Perm (packets all') := h.flatMap_right _

end Lists

structure Sessions (ifs : Links Ptr) (ifqSo : Ptr → Option Sock) (all : List Session) : Prop where
  rings : ∀ s ∈ all, Circular ifs s.ptr (s.rest.map .mbuf)
  socks : ∀ s ∈ all, ∀ m ∈ s.pkts, ifqSo (.mbuf m) = s.so
  distinct : (packets all).Nodup

section Sessions
variable {ifs : Links Ptr} {ifqSo : Ptr → Option Sock}

theorem Sessions.perm (h : Sessions ifs ifqSo all) (hp : all.Perm all') : Sessions ifs ifqSo all' :=
  ⟨fun s hs => h.rings s (hp.mem_iff.2 hs), fun s hs => h.socks s (hp.mem_iff.2 hs), (packets_perm hp).nodup h.distinct⟩

theorem mem_ring : p ∈ s.ptr :: s.rest.map .mbuf ↔ ∃ m ∈ s.pkts, p = .mbuf m := by
  simp [ptr, pkts, eq_comm]

theorem notMem_ring_of_fresh (hm : m ∉ packets all) (ht : t ∈ all) : mbuf m ∉ t.ptr :: t.rest.map .mbuf := by
  intro hp
  obtain ⟨m', hm', he⟩ := mem_ring.1 hp
  cases he
  exact hm (mem_packets.2 ⟨t, ht, hm'⟩)

theorem notMem_ring (hd : (packets (s :: A)).Nodup) (ht : t ∈ A)
    (hp : p ∈ s.ptr :: s.rest.map .mbuf) : p ∉ t.ptr :: t.rest.map .mbuf := by
  obtain ⟨m, hm, rfl⟩ := mem_ring.1 hp
  rw [packets_cons] at hd
  exact notMem_ring_of_fresh (fun h => (nodup_append.1 hd).2.2 m hm m h rfl) ht

theorem Sessions.setSock (h : Sessions ifs ifqSo all) (hm : m ∉ packets all) :
    Sessions ifs (update ifqSo (.mbuf m) so) all := by
  refine ⟨h.rings, fun s hs k hk => ?_, h.distinct⟩
  have hne : mbuf k ≠ .mbuf m := by
    intro he
    cases he
    exact hm (mem_packets.2 ⟨s, hs, hk⟩)
  rw [update_of_ne hne]
  exact h.socks s hs k hk

theorem Sessions.add (h : Sessions ifs ifqSo (s :: A)) (hm : m ∉ packets (s :: A)) :
    Sessions (ifs.insert (.mbuf m) (ifs.prev s.ptr)) (update ifqSo (.mbuf m) s.so) (s.add m :: A) := by
  have hs : Sessions ifs (update ifqSo (.mbuf m) s.so) (s :: A) := h.setSock hm
  have hring := h.rings s (by simp)
  have hprev := hring.prev_mem (a := s.ptr) (by simp)
  constructor
  · intro t ht
    rcases mem_cons.1 ht with rfl | ht
    · have := hring.insert_last (notMem_ring_of_fresh hm (by simp))
      simpa [Session.add, Session.ptr] using this
    · exact (h.rings t (by simp [ht])).insert_off (notMem_ring_of_fresh hm (by simp [ht]))
        (notMem_ring h.distinct ht hprev) (notMem_ring h.distinct ht (hring.next_mem hprev))
  · intro t ht k hk
    rcases mem_cons.1 ht with rfl | ht
    · have hk' : k ∈ s.pkts ∨ k = m := by simpa [Session.add, Session.pkts, or_assoc] using hk
      rcases hk' with hk | rfl
      · exact hs.socks s (by simp) k hk
      · exact update_self ..
    · exact hs.socks t (by simp [ht]) k hk
  · have hp : (packets (s.add m :: A)).Perm (m :: packets (s :: A)) := by
      simp only [packets_cons, Session.add, Session.pkts]
      rw [← cons_append, append_assoc]
      exact perm_middle
    exact hp.symm.nodup (nodup_cons.2 ⟨hm, h.distinct⟩)

theorem Sessions.new (h : Sessions ifs ifqSo A) (hm : m ∉ packets A) :
    Sessions (ifs.single (.mbuf m)) (update ifqSo (.mbuf m) so) (⟨so, m, []⟩ :: A) := by
  have hs : Sessions ifs (update ifqSo (.mbuf m) so) A := h.setSock hm
  constructor
  · intro t ht
    rcases mem_cons.1 ht with rfl | ht
    · exact Circular.single ..
    · exact (h.rings t ht).single_off (notMem_ring_of_fresh hm ht)
  · intro t ht k hk
    rcases mem_cons.1 ht with rfl | ht
    · have hk' : k = m := by simpa [pkts] using hk
      rw [hk', update_self]
    · exact hs.socks t ht k hk
  · simpa [pkts] using ⟨hm, h.distinct⟩

theorem Sessions.pop {x : Nat} {xs : List Nat} (h : Sessions ifs ifqSo (s :: A))
    (hr : s.rest = x :: xs) : Sessions (ifs.remove s.ptr) ifqSo (⟨s.so, x, xs⟩ :: A) := by
  have hring := h.rings s (by simp)
  constructor
  · intro t ht
    rcases mem_cons.1 ht with rfl | ht
    · rw [hr, map_cons] at hring
      have hring' : Circular ifs s.ptr ([] ++ mbuf x :: xs.map .mbuf) := hring
      have hpop := hring'.rotate.remove
      rw [append_nil] at hpop
      exact hpop
    · exact (h.rings t (by simp [ht])).remove_off
        (notMem_ring h.distinct ht (hring.next_mem (by simp)))
        (notMem_ring h.distinct ht (hring.prev_mem (by simp)))
  · intro t ht k hk
    rcases mem_cons.1 ht with rfl | ht
    · exact h.socks s (by simp) k (by simp only [pkts, hr] at hk ⊢; exact mem_cons_of_mem _ hk)
    · exact h.socks t (by simp [ht]) k hk
  · have hd := h.distinct
    simp only [packets_cons, pkts, hr, cons_append] at hd ⊢
    exact (nodup_cons.1 hd).2

theorem Sessions.tail (h : Sessions ifs ifqSo (s :: A)) : Sessions ifs ifqSo A :=
  ⟨fun t ht => h.rings t (by simp [ht]), fun t ht => h.socks t (by simp [ht]),
    (nodup_append.1 (packets_cons ▸ h.distinct)).2.1⟩

end Sessions

section Rings
variable {L : Links Ptr} {a b e x : Ptr} {l l' l₁ l₂ : List Ptr}

theorem remque_self (c : Circular L a (l₁ ++ e :: l₂)) : Circular (remque L e) a (l₁ ++ l₂) := by
  have he : e ∉ a :: (l₁ ++ l₂) := by
    have hp : (a :: (l₁ ++ e :: l₂)).Perm (e :: a :: (l₁ ++ l₂)) :=
      (List.Perm.cons a perm_middle).trans (List.Perm.swap e a _)
    exact (nodup_cons.1 (hp.nodup c.nodup)).1
  refine c.remove.congr (fun _ _ => rfl) fun p hp => ?_
  have hne : p ≠ e := fun h => he (h ▸ hp)
  exact update_of_ne hne _ _

theorem replace_self (c : Circular L a (l₁ ++ e :: l₂)) (hx : x ∉ a :: (l₁ ++ l₂)) :
    Circular ((remque L e).insert x (L.prev e)) a (l₁ ++ x :: l₂) := by
  rw [c.prev_at]
  exact (remque_self c).insert_between hx

section
variable (c : Circular L a l) (c' : Circular L b l') (hd : ∀ p ∈ a :: l, p ∉ b :: l')
include c c' hd

theorem remque_other (he : e ∈ a :: l) : Circular (remque L e) b l' := by
  have hr := c'.remove_off (hd _ (c.next_mem he)) (hd _ (c.prev_mem he))
  refine hr.congr (fun _ _ => rfl) fun p hp => ?_
  have hne : p ≠ e := fun h => hd e he (h ▸ hp)
  exact update_of_ne hne _ _

theorem insert_other (he : e ∉ b :: l') (hx : x ∈ a :: l) : Circular (L.insert e x) b l' :=
  c'.insert_off he (hd x hx) (hd _ (c.next_mem hx))

end

end Rings

structure Queues (ifq : Links Ptr) (fast batch : List Session) : Prop where
  fastRing : Circular ifq .fastq (fast.map Session.ptr)
  batchRing : Circular ifq .batchq (batch.map Session.ptr)

section Queues
variable {ifq : Links Ptr} {fast batch F B₁ B₂ : List Session} {h : Ptr}

theorem ptr_mem_map : mbuf m ∈ all.map ptr ↔ ∃ s ∈ all, s.head = m := by
  simp [ptr]

theorem queues_apart (hd : (packets (fast ++ batch)).Nodup)
    (hp : p ∈ fastq :: fast.map ptr) : p ∉ batchq :: batch.map ptr := by
  intro hb
  rcases mem_cons.1 hp with rfl | hp
  · simp [ptr] at hb
  obtain ⟨s, hs, rfl⟩ := mem_map.1 hp
  obtain ⟨t, ht, he⟩ := ptr_mem_map.1 (mem_of_ne_of_mem (by simp) hb)
  rw [packets_append] at hd
  exact (nodup_append.1 hd).2.2 s.head (mem_packets_head hs) t.head (mem_packets_head ht) he.symm

theorem queues_apart' (hd : (packets (fast ++ batch)).Nodup)
    (hp : p ∈ batchq :: batch.map ptr) : p ∉ fastq :: fast.map ptr :=
  fun h => queues_apart hd h hp

theorem fresh_notMem (hm : m ∉ packets all) (hh : h ≠ .mbuf m) : mbuf m ∉ h :: all.map ptr := by
  intro hp
  rcases mem_cons.1 hp with hp | hp
  · exact hh hp.symm
  · obtain ⟨s, hs, he⟩ := ptr_mem_map.1 hp
    exact hm (he ▸ mem_packets_head hs)

theorem Queues.pushFast (h : Queues ifq fast batch) (hd : (packets (fast ++ batch)).Nodup)
    (hm : m ∉ packets (fast ++ batch)) (so : Option Sock) :
    Queues (ifq.insert (.mbuf m) (ifq.prev .fastq)) (fast ++ [⟨so, m, []⟩]) batch := by
  rw [packets_append, mem_append, not_or] at hm
  constructor
  · have := h.fastRing.insert_last (fresh_notMem hm.1 (by simp))
    simpa [ptr] using this
  · exact insert_other h.fastRing h.batchRing (fun _ => queues_apart hd)
      (fresh_notMem hm.2 (by simp)) (h.fastRing.prev_mem (by simp))

theorem Queues.pushBatch (h : Queues ifq fast batch) (hd : (packets (fast ++ batch)).Nodup)
    (hm : m ∉ packets (fast ++ batch)) (so : Option Sock) :
    Queues (ifq.insert (.mbuf m) (ifq.prev .batchq)) fast (batch ++ [⟨so, m, []⟩]) := by
  rw [packets_append, mem_append, not_or] at hm
  constructor
  · exact insert_other h.batchRing h.fastRing (fun _ => queues_apart' hd)
      (fresh_notMem hm.1 (by simp)) (h.batchRing.prev_mem (by simp))
  · have := h.batchRing.insert_last (fresh_notMem hm.2 (by simp))
    simpa [ptr] using this

theorem ptr_notMem (hd : (packets (s :: all)).Nodup) (hh : h ≠ s.ptr) : s.ptr ∉ h :: all.map ptr := by
  apply fresh_notMem (m := s.head) _ hh
  intro hm
  rw [packets_cons] at hd
  exact (nodup_append.1 hd).2.2 s.head (by simp [pkts]) s.head hm rfl

/-- A session that was taken out of its ring is put at the head of the batch ring. -/
theorem queues_demoted (hd : (packets (s :: (fast ++ batch))).Nodup)
    (hfast : Circular (remque ifq s.ptr) .fastq (fast.map ptr))
    (hbatch : Circular (remque ifq s.ptr) .batchq (batch.map ptr)) :
    Queues ((remque ifq s.ptr).insert s.ptr .batchq) fast (s :: batch) := by
  have hF : (packets (s :: fast)).Nodup := hd.sublist (((sublist_append_left fast batch).cons_cons s).flatMap _)
  have hB : (packets (s :: batch)).Nodup := hd.sublist (((sublist_append_right fast batch).cons_cons s).flatMap _)
  have hdF : (packets (fast ++ batch)).Nodup := hd.sublist ((sublist_cons_self _ _).flatMap _)
  constructor
  · exact insert_other hbatch hfast (fun _ => queues_apart' hdF) (ptr_notMem hF (by simp [ptr])) (by simp)
  · exact hbatch.insert_head (ptr_notMem hB (by simp [ptr]))

theorem Queues.demoteFast (h : Queues ifq (F ++ [s]) batch) (hd : (packets (F ++ [s] ++ batch)).Nodup) :
    Queues ((remque ifq s.ptr).insert s.ptr .batchq) F (s :: batch) := by
  have hperm : (F ++ [s] ++ batch).Perm (s :: (F ++ batch)) := by
    rw [append_assoc]
    exact perm_middle
  have hfast : Circular ifq .fastq (F.map ptr ++ s.ptr :: []) := by simpa using h.fastRing
  refine queues_demoted ((packets_perm hperm).nodup hd) ?_ ?_
  · simpa using remque_self hfast
  · exact remque_other h.fastRing h.batchRing (fun _ => queues_apart hd) (by simp)

theorem Queues.popBatch (h : Queues ifq fast (B₁ ++ s :: B₂)) (hd : (packets (fast ++ (B₁ ++ s :: B₂))).Nodup) :
    Queues (remque ifq s.ptr) fast (B₁ ++ B₂) := by
  have hbatch : Circular ifq .batchq (B₁.map ptr ++ s.ptr :: B₂.map ptr) := by
    simpa using h.batchRing
  constructor
  · exact remque_other h.batchRing h.fastRing (fun _ => queues_apart' hd) (by simp)
  · simpa using remque_self hbatch

theorem Queues.demoteBatch (h : Queues ifq fast (B₁ ++ s :: B₂)) (hd : (packets (fast ++ (B₁ ++ s :: B₂))).Nodup) :
    Queues ((remque ifq s.ptr).insert s.ptr .batchq) fast (s :: (B₁ ++ B₂)) := by
  have hperm : (fast ++ (B₁ ++ s :: B₂)).Perm (s :: (fast ++ (B₁ ++ B₂))) :=
    (List.Perm.append_left fast perm_middle).trans perm_middle
  have hp := h.popBatch hd
  exact queues_demoted ((packets_perm hperm).nodup hd) hp.fastRing hp.batchRing

theorem Queues.popFast (h : Queues ifq (s :: F) batch)
    (hd : (packets (s :: F ++ batch)).Nodup) : Queues (remque ifq s.ptr) F batch := by
  constructor
  · have hfast : Circular ifq .fastq ([] ++ s.ptr :: F.map ptr) := h.fastRing
    exact remque_self hfast
  · exact remque_other h.fastRing h.batchRing (fun _ => queues_apart hd) (by simp)

theorem Queues.nextFast (h : Queues ifq (s :: F) batch) (hd : (packets (s :: F ++ batch)).Nodup)
    (hd' : (packets (t :: F ++ batch)).Nodup) :
    Queues ((remque ifq s.ptr).insert t.ptr (ifq.prev s.ptr)) (t :: F) batch := by
  have htF : (packets (t :: F)).Nodup := by
    rw [packets_append] at hd'
    exact (nodup_append.1 hd').1
  have htB : (packets (t :: batch)).Nodup :=
    hd'.sublist (((sublist_append_right F batch).cons_cons t).flatMap _)
  have hfast : Circular ifq .fastq ([] ++ s.ptr :: F.map ptr) := h.fastRing
  have hprev : ifq.prev s.ptr = .fastq := hfast.prev_at
  have hp := h.popFast hd
  constructor
  · exact replace_self hfast (ptr_notMem htF (by simp [ptr]))
  · rw [hprev]
    exact insert_other hp.fastRing hp.batchRing
      (fun _ => queues_apart (hd'.sublist ((sublist_cons_self _ _).flatMap _)))
      (ptr_notMem htB (by simp [ptr])) (by simp)

theorem Queues.nextBatch (h : Queues ifq fast (B₁ ++ s :: B₂)) (hd : (packets (fast ++ (B₁ ++ s :: B₂))).Nodup)
    (hd' : (packets (t :: (fast ++ (B₁ ++ B₂)))).Nodup) :
    Queues ((remque ifq s.ptr).insert t.ptr (ifq.prev s.ptr)) fast (B₁ ++ t :: B₂) := by
  have htF : (packets (t :: fast)).Nodup :=
    hd'.sublist (((sublist_append_left fast _).cons_cons t).flatMap _)
  have htB : (packets (t :: (B₁ ++ B₂))).Nodup :=
    hd'.sublist (((sublist_append_right fast _).cons_cons t).flatMap _)
  have hbatch : Circular ifq .batchq (B₁.map ptr ++ s.ptr :: B₂.map ptr) := by
    simpa using h.batchRing
  have hp := h.popBatch hd
  have hprev : ifq.prev s.ptr ∈ batchq :: (B₁ ++ B₂).map ptr := by
    rw [hbatch.prev_at]
    have := getLast_mem (l := batchq :: B₁.map ptr) (by simp)
    simp only [mem_cons, map_append, mem_append] at this ⊢
    tauto
  constructor
  · exact insert_other hp.batchRing hp.fastRing
      (fun _ => queues_apart' (hd'.sublist ((sublist_cons_self _ _).flatMap _)))
      (ptr_notMem htF (by simp [ptr])) hprev
  · have hx : t.ptr ∉ batchq :: (B₁.map ptr ++ B₂.map ptr) := by
      rw [← map_append]
      exact ptr_notMem htB (by simp [ptr])
    simpa using replace_self hbatch hx

end Queues

end GemDroid.Slirp
