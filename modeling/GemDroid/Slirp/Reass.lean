import GemDroid.Lib.Circular

/-! The reassembly of IP datagrams in `slirp-android/ip_input.c`.

The fragments of a datagram wait in a circular list threaded through the bytes in front of
their IP headers, from a `struct ipq` that says which datagram it is. A fragment is trimmed
against the one before it, and trims or removes those behind it. When the fragments have no
gap and the last one ends the datagram, their data is appended to the first one's `mbuf`.

The `mbuf`s of fragments are numbered, and so are the queues. The buffer of an `mbuf` is
given by its contents and by where in it `m_data` points. -/
namespace GemDroid.Slirp.Reass
open Lib Function

/-- What datagrams are told apart by: `ip_id`, `ip_src`, `ip_dst` and `ip_p`. -/
structure Key where
  id : Nat
  src : Nat
  dst : Nat
  p : Nat
  deriving DecidableEq, Repr

/-- A `struct mbuf` that holds a fragment, and the fields of its IP header. -/
structure Mbuf where
  /-- `m_flags & M_EXT` and `m_flags & M_DOFREE` -/
  ext : Bool
  doFree : Bool
  /-- `m_size` -/
  size : Nat
  /-- `m_data`, from the start of the buffer -/
  start : Nat
  /-- The `m_len` bytes at `m_data`. -/
  data : List Nat
  ipHl : Nat
  ipOff : Nat
  ipLen : Nat
  /-- `ip_tos & 1` -/
  mf : Bool
  deriving DecidableEq, Repr

/-- A place in a reassembly list: the `frag_link` of a queue, or the `ipf_link` of a
fragment. -/
inductive Node
  | ipq (t : Nat)
  | frag (m : Nat)
  deriving DecidableEq, Repr

structure Ipq where
  t : Nat
  key : Key
  deriving DecidableEq, Repr

structure State where
  links : Links Node
  mbuf : Nat → Mbuf
  /-- The `mbuf` is on `m_usedlist`. -/
  used : Nat → Bool
  /-- The list `ipq`. -/
  ipq : List Ipq
  /-- How many fragments were ever queued: a bound on the loops over a list. -/
  total : Nat

/-- How a step goes wrong: a loop that does not come back to the queue, a pointer to the wrong
kind of structure, a read of memory given back to `free`, a pointer computed from two
different buffers, and a `memcpy` behind the end of a buffer. -/
inductive Fault
  | endless
  | badPointer
  | useAfterFree
  | wildPointer
  | overflow
  deriving DecidableEq, Repr

/-- The datagram that `ip_reass` returns: where `m_data` points, `ip_len`, and the bytes
behind the header. -/
structure Packet where
  start : Nat
  ipLen : Nat
  payload : List Nat
  deriving DecidableEq, Repr

def mincsize : Nat := 4096

/-- The `m_size` of a new `mbuf`: `IF_MTU + IF_MAXLINKHDR + 6`. -/
def msize : Nat := 1500 + (2 + 14 + 40) + 6

/-- Where the IP header is in the buffer, behind the Ethernet header. -/
def ipStart : Nat := 2 + 14

def freeRoom (m : Mbuf) : Int := (m.size : Int) - m.start - m.data.length

def mInc (m : Mbuf) (size : Nat) : Mbuf :=
  if m.size > size then m else { m with ext := true, size := size }

def mAdj (m : Mbuf) (len : Nat) : Mbuf :=
  { m with start := m.start + len, data := m.data.drop len }

def mCat (m n : Mbuf) : Except Fault Mbuf :=
  let m := if freeRoom m < n.data.length then mInc m (m.size + mincsize) else m
  if freeRoom m < n.data.length then .error .overflow
  else .ok { m with data := m.data ++ n.data }

def mFree (s : State) (m : Nat) : State := { s with used := update s.used m false }

def trim (b : Mbuf) (i : Nat) : Mbuf :=
  { mAdj b i with ipOff := (b.ipOff + i) % 65536, ipLen := b.ipLen - i }

def setMbuf (s : State) (m : Nat) (b : Mbuf) : State :=
  { s with mbuf := update s.mbuf m b }

def ipEnq (s : State) (m : Nat) (prev : Node) : State :=
  { s with links := s.links.insert (.frag m) prev, total := s.total + 1 }

def ipDeq (s : State) (m : Nat) : State := { s with links := s.links.remove (.frag m) }

/-- The first loop of `ip_reass`: find a fragment that begins after offset `off`. -/
def findAfter (s : State) (t off : Nat) : Nat → Node → Except Fault Node
  | 0, _ => .error .endless
  | _ + 1, .ipq t' => if t' = t then .ok (.ipq t) else .error .badPointer
  | fuel + 1, .frag m =>
    if (s.mbuf m).ipOff > off then .ok (.frag m)
    else findAfter s t off fuel (s.links.next (.frag m))

/-- How much of the incoming fragment the one before `q` has. -/
def overlap (s : State) (q : Node) (off : Nat) : Nat :=
  match s.links.prev q with
  | .ipq _ => 0
  | .frag pq => (s.mbuf pq).ipOff + (s.mbuf pq).ipLen - off

/-- The second loop: trim the fragments that begin before `stop`, or dequeue them. A fragment
is freed before its links are read, so they must not be in memory that `m_free` gives back. -/
def coverLoop (t stop : Nat) : Nat → State → Node → Except Fault (State × Node)
  | 0, _, _ => .error .endless
  | _ + 1, s, .ipq t' => if t' = t then .ok (s, .ipq t) else .error .badPointer
  | fuel + 1, s, .frag m =>
    let q := s.mbuf m
    if stop > q.ipOff then
      let i := stop - q.ipOff
      if i < q.ipLen then .ok (setMbuf s m (trim q i), .frag m)
      else if q.ext = true ∨ q.doFree = true then .error .useAfterFree
      else coverLoop t stop fuel (ipDeq (mFree s m) m) (s.links.next (.frag m))
    else .ok (s, .frag m)

/-- The third loop: the end of the fragments from offset `next` on, if there is no gap. -/
def checkLoop (s : State) (t : Nat) : Nat → Node → Nat → Except Fault (Option Nat)
  | 0, _, _ => .error .endless
  | _ + 1, .ipq t', next => if t' = t then .ok (some next) else .error .badPointer
  | fuel + 1, .frag m, next =>
    if (s.mbuf m).ipOff ≠ next then .ok none
    else checkLoop s t fuel (s.links.next (.frag m)) (next + (s.mbuf m).ipLen)

/-- The fourth loop: append the data of the fragments. -/
def catLoop (t : Nat) : Nat → State → Node → Mbuf → Except Fault (State × Mbuf)
  | 0, _, _, _ => .error .endless
  | _ + 1, s, .ipq t', m => if t' = t then .ok (s, m) else .error .badPointer
  | fuel + 1, s, .frag n, m => do
    let m ← mCat m (s.mbuf n)
    catLoop t fuel (mFree s n) (s.links.next (.frag n)) m

/-- The end of `ip_reass`: the fragments become one packet. The new place of the header is
computed from its distance to `m_dat`, where it was unless the first fragment came in an
external buffer. -/
def complete (s : State) (t next : Nat) : Except Fault (State × Option Packet) :=
  match s.links.next (.ipq t) with
  | .ipq _ => .error .badPointer
  | .frag f => do
    let (s', m) ← catLoop t (s.total + 1) s (s.links.next (.frag f)) (s.mbuf f)
    if (s.mbuf f).ext then .error .wildPointer
    else
      let s' := mFree { s' with ipq := s'.ipq.filter fun q => q.t ≠ t } f
      .ok (s', some ⟨m.start - 4 * m.ipHl, next % 65536, m.data⟩)

/-- Look whether the datagram of a queue is complete. -/
def checkComplete (s : State) (t : Nat) : Except Fault (State × Option Packet) := do
  match ← checkLoop s t (s.total + 1) (s.links.next (.ipq t)) 0 with
  | none => .ok (s, none)
  | some next =>
    match s.links.prev (.ipq t) with
    | .ipq _ => .error .badPointer
    | .frag last => if (s.mbuf last).mf then .ok (s, none) else complete s t next

def insertFrag (s : State) (m t : Nat) (q : Node) : Except Fault (State × Option Packet) :=
  checkComplete (ipEnq s m (s.links.prev q)) t

def ipReassQueued (s : State) (m t : Nat) : Except Fault (State × Option Packet) := do
  let ip := s.mbuf m
  let q ← findAfter s t ip.ipOff (s.total + 1) (s.links.next (.ipq t))
  let i := overlap s q ip.ipOff
  if 0 < i ∧ ip.ipLen ≤ i then pure (mFree s m, none)
  else
    let s := setMbuf s m (if 0 < i then trim ip i else ip)
    let stop := (s.mbuf m).ipOff + (s.mbuf m).ipLen
    let (s, q) ← coverLoop t stop (s.total + 1) s q
    insertFrag s m t q

/-- `ip_reass`, for the fragment in `mbuf` `m`; `t` is the queue that `m_get` gives for a new
datagram. -/
def ipReass (s : State) (m t : Nat) (key : Key) (fp : Option Nat) : Except Fault (State × Option Packet) :=
  let s := setMbuf s m (mAdj (s.mbuf m) (4 * (s.mbuf m).ipHl))
  match fp with
  | none =>
    insertFrag { s with ipq := ⟨t, key⟩ :: s.ipq, links := s.links.single (.ipq t) } m t (.ipq t)
  | some t => ipReassQueued s m t

def freeLoop (t : Nat) : Nat → State → Node → Except Fault State
  | 0, _, _ => .error .endless
  | _ + 1, s, .ipq t' => if t' = t then .ok s else .error .badPointer
  | fuel + 1, s, .frag m => freeLoop t fuel (mFree (ipDeq s m) m) (s.links.next (.frag m))

def ipFreef (s : State) (t : Nat) : Except Fault State := do
  let s ← freeLoop t (s.total + 1) s (s.links.next (.ipq t))
  pure { s with ipq := s.ipq.filter fun q => q.t ≠ t }

/-- An IP packet as it comes in: the frame's length, the fields of the header that count, and
the `ip_len` bytes from the header on. `doFree` says that its `mbuf` is one of those that
`m_free` gives back. -/
structure Ip where
  key : Key
  ipHl : Nat
  /-- `ip_off` with its flags. -/
  ipOff : Nat
  data : List Nat
  pktLen : Nat
  doFree : Bool
  deriving DecidableEq, Repr

namespace Ip

def mf (ip : Ip) : Bool := ip.ipOff &&& 0x2000 ≠ 0

/-- `ip_off <<= 3` -/
def off (ip : Ip) : Nat := (ip.ipOff <<< 3) % 65536

def payload (ip : Ip) : List Nat := ip.data.drop (4 * ip.ipHl)

/-- The `mbuf` that `slirp_input` and `ip_input` make of the packet. -/
def toMbuf (ip : Ip) : Mbuf :=
  let m : Mbuf :=
    { ext := false, doFree := ip.doFree, size := msize, start := ipStart, data := ip.data
      ipHl := ip.ipHl, ipOff := ip.off, ipLen := ip.data.length - 4 * ip.ipHl, mf := ip.mf }
  if msize < ip.pktLen + 2 then mInc m (ip.pktLen + 2) else m

end Ip

/-- `ip_input` from the test for fragments on: what it passes to the next level. -/
def ipInput (s : State) (m t : Nat) (ip : Ip) : Except Fault (State × Option Packet) :=
  let whole : Packet := ⟨ipStart, ip.data.length - 4 * ip.ipHl, ip.payload⟩
  if ip.ipOff % 65536 &&& 0xbfff ≠ 0 then
    let fp := (s.ipq.find? fun q => q.key = ip.key).map Ipq.t
    if ip.mf = true ∨ ip.off ≠ 0 then
      ipReass { setMbuf s m ip.toMbuf with used := update s.used m true } m t ip.key fp
    else
      match fp with
      | none => .ok (s, some whole)
      | some t => do
        let s ← ipFreef s t
        pure (s, some whole)
  else .ok (s, some whole)

end GemDroid.Slirp.Reass
