import GemDroid.Lib.Circular

/-! The output queues of `slirp-android/if.c`.

Packets wait on two queues of sessions, a fast one and a batch one. The first packet of a
session is linked into its queue by `ifq_next` and `ifq_prev`, and the packets of a session
into a ring by `ifs_next` and `ifs_prev`. The heads of the queues are packets too, so all
links are between places of one kind, `Ptr`. Packets are numbered in the order they are
queued, which the source does not do: the numbers say what is sent. -/
namespace GemDroid.Slirp
open Lib Function

abbrev Sock := Nat

/-- A `struct mbuf *`: the two queue heads, and the packets. -/
inductive Ptr
  | null
  | fastq
  | batchq
  | mbuf (m : Nat)
  deriving DecidableEq, Repr

/-- The queues of `if.c`, and the fields of sockets they use. -/
structure IfState where
  ifq : Links Ptr
  ifs : Links Ptr
  ifqSo : Ptr → Option Sock
  ifQueued : Int
  nextM : Ptr
  soQueued : Sock → Int
  soNqueued : Sock → Int
  /-- `so->so_iptos & IPTOS_LOWDELAY` -/
  lowDelay : Sock → Bool
  /-- The number of a packet, the socket and the `mbuf` of each packet queued so far, and the
  packets sent. -/
  serial : Ptr → Nat
  log : List (Option Sock × Nat)
  sent : List Nat

/-- How a step goes wrong: a search that does not come back to the queue head, or a pointer
that is no packet. -/
inductive Fault
  | endless
  | badPointer
  deriving DecidableEq, Repr

/-- `remque`: the element is taken out and its `ifq_prev` cleared. -/
def remque (L : Links Ptr) (e : Ptr) : Links Ptr :=
  { L.remove e with prev := update (L.remove e).prev e .null }

/-- The loop of `if_output` over the batch queue, from its end. -/
def findSession (c : IfState) (so : Option Sock) : Nat → Ptr → Except Fault (Option Ptr)
  | 0, _ => .error .endless
  | fuel + 1, ifq =>
    if ifq = .batchq then .ok none
    else if c.ifqSo ifq = so then .ok (some ifq)
    else findSession c so fuel (c.ifq.prev ifq)

def enqueue (c : IfState) (so : Option Sock) (ifm : Ptr) (found : Option Ptr) : IfState :=
  match found with
  | some ifq => { c with ifs := c.ifs.insert ifm (c.ifs.prev ifq) }
  | none =>
    let fast : Bool := match so with
      | some s => c.lowDelay s
      | none => false
    let ifq := c.ifq.prev (if fast then .fastq else .batchq)
    if fast = true ∧ c.ifqSo ifq = so then { c with ifs := c.ifs.insert ifm (c.ifs.prev ifq) }
    else { c with ifs := c.ifs.single ifm, ifq := c.ifq.insert ifm ifq }

/-- Count the packet, and move its session to the batch queue if it hogs the link. The test
for the fast queue is always true: `on_fastq` is never cleared. -/
def countQueued (c : IfState) (so : Option Sock) (ifm : Ptr) : IfState :=
  let c := { c with ifQueued := c.ifQueued + 1 }
  match so with
  | none => c
  | some s =>
    let c := { c with
      soQueued := update c.soQueued s (c.soQueued s + 1)
      soNqueued := update c.soNqueued s (c.soNqueued s + 1) }
    if c.soNqueued s ≥ 6 ∧ c.soNqueued s - c.soQueued s ≥ 3 then
      { c with ifq := (remque c.ifq (c.ifs.next ifm)).insert (c.ifs.next ifm) .batchq }
    else c

/-- The packet that `if_start` sends next, and `next_m` after it. -/
def choose (c : IfState) : Ptr × Ptr :=
  if c.ifq.next .fastq ≠ .fastq then (c.ifq.next .fastq, c.nextM)
  else
    let ifm := if c.nextM ≠ .batchq then c.nextM else c.ifq.next .batchq
    (ifm, c.ifq.next ifm)

/-- Take a packet off its queue; the rest of its session takes its place. -/
def dequeue (c : IfState) (ifm : Ptr) : IfState :=
  let ifqt := c.ifq.prev ifm
  let c := { c with ifq := remque c.ifq ifm, ifQueued := c.ifQueued - 1 }
  if c.ifs.next ifm ≠ ifm then
    { c with ifq := c.ifq.insert (c.ifs.next ifm) ifqt, ifs := c.ifs.remove ifm }
  else c

def countSent (c : IfState) (ifm : Ptr) : IfState :=
  match c.ifqSo ifm with
  | none => c
  | some s =>
    let c := { c with soQueued := update c.soQueued s (c.soQueued s - 1) }
    if c.soQueued s = 0 then { c with soNqueued := update c.soNqueued s 0 } else c

/-- One round of `if_start`. -/
def sendOne (c : IfState) : Except Fault IfState :=
  let (ifm, nextM) := choose c
  match ifm with
  | .mbuf _ =>
    let c := countSent (dequeue { c with nextM := nextM } ifm) ifm
    .ok { c with sent := c.sent ++ [c.serial ifm] }
  | _ => .error .badPointer

def startLoop : List Bool → IfState → Except Fault IfState
  | true :: answers, c => do
    let c ← sendOne c
    if c.ifQueued ≠ 0 then startLoop answers c else pure c
  | _, c => .ok c

def ifStart (answers : List Bool) (c : IfState) : Except Fault IfState :=
  if c.ifQueued = 0 then .ok c else startLoop answers c

def ifOutput (so : Option Sock) (m : Nat) (linkUp : Bool) (answers : List Bool) (c : IfState) :
    Except Fault IfState := do
  let ifm := Ptr.mbuf m
  let found ← findSession c so (c.ifQueued.toNat + 1) (c.ifq.prev .batchq)
  let c := { enqueue c so ifm found with
    ifqSo := update c.ifqSo ifm so
    serial := update c.serial ifm c.log.length
    log := c.log ++ [(so, m)] }
  let c := countQueued c so ifm
  if linkUp then ifStart answers c else pure c

/-- After `if_init`: both queues are empty, and nothing is counted. -/
structure Initial (c : IfState) : Prop where
  fastq : c.ifq.next .fastq = .fastq ∧ c.ifq.prev .fastq = .fastq
  batchq : c.ifq.next .batchq = .batchq ∧ c.ifq.prev .batchq = .batchq
  nextM : c.nextM = .batchq
  head : c.ifqSo .fastq = none
  ifQueued : c.ifQueued = 0
  soQueued : ∀ s, c.soQueued s = 0
  log : c.log = []
  sent : c.sent = []

/-- What can happen: a packet is queued, the queue is started, or a socket changes its type of
service. -/
inductive Op
  | output (so : Option Sock) (m : Nat) (linkUp : Bool) (answers : List Bool)
  | start (answers : List Bool)
  | setTos (s : Sock) (low : Bool)

def step (c : IfState) : Op → Except Fault IfState
  | .output so m linkUp answers => ifOutput so m linkUp answers c
  | .start answers => ifStart answers c
  | .setTos s low => .ok { c with lowDelay := update c.lowDelay s low }

end GemDroid.Slirp
