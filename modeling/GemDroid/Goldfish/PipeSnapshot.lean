import GemDroid.Goldfish.PipeIrq
import GemDroid.Lib.BigEndian
import Mathlib.Data.List.TakeWhile

/-! Snapshots of the goldfish pipe device.

`goldfish_pipe_save` writes the registers and the pipes in the order of their list;
`goldfish_pipe_load` reads them back, each in front of those before. A pipe whose service cannot
be restored is closed. The loop at the end wakes the pipes that want something; its call of
`goldfish_pipe_close` finds the pipe closed already and does nothing. -/
namespace GemDroid.Goldfish
open Lib Lib.LinkPath List PipeDevice

variable {rest l : List Nat} {c : Cell}

/-! ### Services -/

/-- The `save` and `load` callbacks of a service; `load` takes what `save` has written. -/
structure SaveLoad (S : Type) where
  save : S → List Nat
  load : Option (List Nat) → List Nat → Option (S × List Nat)
  load_save : ∀ st args rest, ∃ st', load args (save st ++ rest) = some (st', rest)

structure PipeService (S : Type) where
  name : List Nat
  saveLoad : Option (SaveLoad S)

/-- What `opaque` points to: a connector, with the used part of its buffer, or a state of a service. -/
inductive Handle (S : Type) where
  | connector (buffer : List Nat)
  | state (st : S)

structure Peer (S : Type) where
  service : Option Nat
  args : Option (List Nat)
  handle : Handle S

variable {S : Type} (services : List (PipeService S))

variable {d : PipeDevice (Peer S)} {ps sig : List Nat} {qs : List (Pipe (Peer S))}

/-- `goldfish_pipe_find_type`. -/
def findType (name : List Nat) : Option Nat := services.findIdx? fun service => service.name == name

def saveLoadOf (i : Nat) : Option (SaveLoad S) := (services[i]?).bind PipeService.saveLoad

/-! ### Saving -/

def putString (str : List Nat) : List Nat := putBe 4 str.length ++ str

def savePeer (peer : Peer S) : List Nat :=
  match peer.service, peer.handle with
  | none, .connector buffer => putBe 4 buffer.length ++ buffer
  | some i, .state st => ((saveLoadOf services i).map fun callbacks => callbacks.save st).getD []
  | _, _ => []

def putService : Option Nat → List Nat
  | none => [0]
  | some i => 1 :: putString (((services[i]?).map PipeService.name).getD [])

/-- How arguments are saved: 0, or 1 and the arguments. -/
def putArgs : Option (List Nat) → List Nat
  | none => [0]
  | some args => 1 :: putString args

def pipeSave (pipe : Pipe (Peer S)) : List Nat :=
  putService services pipe.peer.service ++ (putBe 8 pipe.channel.toNat ++ (pipe.wanted.toNat :: pipe.closed.toNat ::
    (putArgs pipe.peer.args ++ savePeer services pipe.peer)))

def walk (list : Cell → Option Nat) : Nat → Option Nat → Except Fault (List Nat)
  | 0, _ => .error .hang
  | _ + 1, none => .ok []
  | fuel + 1, some p => do
    let ps ← walk list fuel (list (.link p))
    pure (p :: ps)

def saveRegisters (d : PipeDevice (Peer S)) : List Nat :=
  putBe 8 d.address.toNat ++ (putBe 4 d.size.toNat ++ (putBe 4 d.status.toNat ++ (putBe 8 d.channel.toNat ++
    (putBe 4 d.wakes.toNat ++ putBe 8 d.paramsAddr.toNat))))

def goldfishPipeSave (fuel : Nat) (d : PipeDevice (Peer S)) : Except Fault (List Nat) := do
  let ps ← walk d.pipes fuel (d.pipes .head)
  pure (saveRegisters d ++ (putBe 4 ps.length ++ (ps.filterMap d.pipe).flatMap (pipeSave services)))

/-! ### Loading -/

def getBuffer (n : Nat) (f : List Nat) : Option (List Nat × List Nat) :=
  if f.length < n then none else some (f.take n, f.drop n)

def getString (f : List Nat) : Option (List Nat) × List Nat :=
  let (slen, f) := getBe 4 f
  if slen = 0 then (none, f)
  else
    match getBuffer slen f with
    | none => (none, [])
    | some (str, f) => (some (str.takeWhile (· ≠ 0)), f)

def loadService (f : List Nat) : Option (Option Nat × List Nat) :=
  let (state, f) := getBe 1 f
  if state = 0 then some (none, f)
  else
    match getString f with
    | (none, _) => none
    | (some name, f) => (findType services name).map fun i => (some i, f)

def getArgs (f : List Nat) : Option (List Nat) × List Nat :=
  let (hasArgs, f) := getBe 1 f
  if hasArgs = 0 then (none, f) else getString f

def connectorLoad (f : List Nat) : Option (List Nat × List Nat) :=
  let (len, f) := getBe 4 f
  if 128 < len then none else getBuffer len f

/-- What `funcs->load` makes of `opaque`, and whether the pipe is closed for want of it. -/
def loadPeer (service : Option Nat) (args : Option (List Nat)) (f : List Nat) : Option (Handle S × Bool × List Nat) :=
  match service with
  | none => (connectorLoad f).map fun (buffer, f) => (.connector buffer, false, f)
  | some i =>
    match saveLoadOf services i with
    | some callbacks => (callbacks.load args f).map fun (st, f) => (.state st, false, f)
    | none => some (.connector [], true, f)

def pipeLoad (version : Nat) (f : List Nat) : Option (Pipe (Peer S) × List Nat) := do
  let (service, f) ← loadService services f
  let (channel, f) := getBe (if version = 2 then 4 else 8) f
  let (wanted, f) := getBe 1 f
  let (closed, f) := getBe 1 f
  let (args, f) := getArgs f
  let (handle, forced, f) ← loadPeer services service args f
  pure (⟨.ofNat 64 channel, .ofNat 8 wanted, if forced then 1 else .ofNat 8 closed, ⟨service, args, handle⟩⟩, f)

def loadPipes (version : Nat) : Nat → Nat → PipeDevice (Peer S) → List Nat → Bool × PipeDevice (Peer S)
  | 0, _, d, _ => (true, d)
  | count + 1, p, d, f =>
    match pipeLoad services version f with
    | none => (false, d)
    | some (pipe, f) => loadPipes version count (p + 1) { d.setPipe p pipe with pipes := prepend d.pipes p } f

/-- What the loop at the end of `goldfish_pipe_load` does first: the pipe is woken if it wants
something. -/
def wakeWanting (fuel : Nat) (d : PipeDevice (Peer S)) (p : Nat) (pipe : Pipe (Peer S)) :
    Except Fault (PipeDevice (Peer S)) :=
  if pipe.wanted ≠ 0 then d.wake fuel p (pipe.wanted.setWidth 32) else .ok d

def closeClosed (fuel : Nat) (d : PipeDevice (Peer S)) (p : Nat) (pipe : Pipe (Peer S)) :
    Except Fault (PipeDevice (Peer S)) :=
  if pipe.closed ≠ 0 then d.close fuel p else .ok d

/-- The loop at the end of `goldfish_pipe_load`. -/
def wakePipes : Nat → PipeDevice (Peer S) → Option Nat → Except Fault (PipeDevice (Peer S))
  | 0, _, _ => .error .hang
  | _ + 1, d, none => .ok d
  | fuel + 1, d, some p =>
    match d.pipe p with
    | none => .error .notOpen
    | some pipe => do
      let d ← wakeWanting fuel d p pipe
      let d ← closeClosed fuel d p pipe
      wakePipes fuel d (d.pipes (.link p))

def loadRegisters (version : Nat) (d : PipeDevice (Peer S)) (f : List Nat) : PipeDevice (Peer S) × List Nat :=
  let (address, f) := getBe (if version = 2 then 4 else 8) f
  let (size, f) := getBe 4 f
  let (status, f) := getBe 4 f
  let (channel, f) := getBe (if version = 2 then 4 else 8) f
  let (wakes, f) := getBe 4 f
  let (paramsAddr, f) := getBe 8 f
  ({ d with
    address := .ofNat 64 address, size := .ofNat 32 size, status := .ofNat 32 status
    channel := .ofNat 64 channel, wakes := .ofNat 32 wakes, paramsAddr := .ofNat 64 paramsAddr }, f)

/-- `goldfish_pipe_load`: what it returns, and the device. A count with its sign bit set is negative. -/
def goldfishPipeLoad (fuel version : Nat) (d : PipeDevice (Peer S)) (f : List Nat) :
    Except Fault (Int × PipeDevice (Peer S)) :=
  if version ≠ 3 ∧ version ≠ 2 then .ok (-22, d)
  else
    let (d, f) := loadRegisters version d f
    let (count, f) := getBe 4 f
    match loadPipes services version (if count < 2 ^ 31 then count else 0) 0 d f with
    | (false, d) => .ok (-5, d)
    | (true, d) => do
      let d ← wakePipes fuel d (d.pipes .head)
      pure (0, d)

/-- `goldfish_pipe_save`, and `goldfish_pipe_load` of the stream into a fresh device. -/
def reload (fuel : Nat) (d : PipeDevice (Peer S)) : Except Fault (Int × PipeDevice (Peer S)) := do
  let f ← goldfishPipeSave services fuel d
  goldfishPipeLoad services fuel 3 PipeDevice.init f

/-! ### One pipe -/

/-- What a C string of a snapshot can be. -/
structure CString (str : List Nat) : Prop where
  nonempty : str ≠ []
  text : ∀ c ∈ str, c ≠ 0
  short : str.length < 2 ^ 31

/-- A peer as the device makes it. A service is the one its name leads to; arguments are a part of
what was written to the connector. -/
structure Peer.Valid (peer : Peer S) : Prop where
  connector : peer.service = none → peer.args = none ∧ ∃ buffer, peer.handle = .connector buffer ∧ buffer.length ≤ 128
  service : ∀ i, peer.service = some i → ∃ svc, services[i]? = some svc ∧ CString svc.name ∧
    findType services svc.name = some i
  args : ∀ args, peer.args = some args → CString args
  state : ∀ i callbacks, peer.service = some i → saveLoadOf services i = some callbacks → ∃ st, peer.handle = .state st

def unrestorable (peer : Peer S) : Bool :=
  match peer.service with
  | none => false
  | some i => (saveLoadOf services i).isNone

/-- What a snapshot keeps of a pipe. The buffer is that of a connector. -/
structure Facts where
  channel : BitVec 64
  wanted : BitVec 8
  service : Option Nat
  args : Option (List Nat)
  buffer : Option (List Nat)

def facts (pipe : Pipe (Peer S)) : Facts where
  channel := pipe.channel
  wanted := pipe.wanted
  service := pipe.peer.service
  args := pipe.peer.args
  buffer :=
    match pipe.peer.service, pipe.peer.handle with
    | none, .connector buffer => some buffer
    | _, _ => none

section One
variable {services} {str : List Nat} {pipe : Pipe (Peer S)}

theorem getBe_byte (v : BitVec 8) : getBe 1 (v.toNat :: rest) = (v.toNat, rest) := by
  simp [getBe, getBeFrom]

theorem getBuffer_append (l rest : List Nat) : getBuffer l.length (l ++ rest) = some (l, rest) := by
  simp [getBuffer]

theorem getString_putString (h : CString str) : getString (putString str ++ rest) = (some str, rest) := by
  have hlen : str.length % 256 ^ 4 = str.length := Nat.mod_eq_of_lt (by have := h.short; omega)
  have hpos : str.length ≠ 0 := length_eq_zero_iff.not.2 h.nonempty
  have hall : str.takeWhile (· ≠ 0) = str := by
    rw [takeWhile_eq_self_iff]
    intro c hc
    exact decide_eq_true (h.text c hc)
  rw [getString, putString, append_assoc, getBe_putBe, hlen]
  simp only [hpos, if_false, getBuffer_append, hall]

section
variable (h : pipe.peer.Valid services)
include h

theorem loadPeer_savePeer (rest : List Nat) :
    ∃ handle, loadPeer services pipe.peer.service pipe.peer.args (savePeer services pipe.peer ++ rest) =
        some (handle, unrestorable services pipe.peer, rest) ∧
      facts { pipe with peer := { pipe.peer with handle } } = facts pipe := by
  cases hservice : pipe.peer.service with
  | none =>
    obtain ⟨-, buffer, hhandle, hlen⟩ := h.connector hservice
    have hmod : buffer.length % 256 ^ 4 = buffer.length := Nat.mod_eq_of_lt (by omega)
    refine ⟨.connector buffer, ?_, by simp only [facts, hservice, hhandle]⟩
    simp only [loadPeer, savePeer, hservice, hhandle, connectorLoad, append_assoc, getBe_putBe, hmod,
      not_lt.2 hlen, if_false, getBuffer_append, unrestorable, Option.map_some]
  | some i =>
    cases hcallbacks : saveLoadOf services i with
    | none =>
      have hsave : savePeer services pipe.peer = [] := by
        simp only [savePeer, hservice]
        split <;> simp_all
      refine ⟨.connector [], ?_, by simp only [facts, hservice]⟩
      rw [hsave]
      simp only [loadPeer, hcallbacks, unrestorable, hservice, Option.isNone_none, nil_append]
    | some callbacks =>
      obtain ⟨st, hst⟩ := h.state i callbacks hservice hcallbacks
      obtain ⟨st', hload⟩ := callbacks.load_save st pipe.peer.args rest
      refine ⟨.state st', ?_, by simp only [facts, hservice]⟩
      simp only [loadPeer, savePeer, hservice, hst, hcallbacks, Option.map_some, Option.getD_some, hload,
        unrestorable, Option.isNone_some]

theorem loadService_putService :
    loadService services (putService services pipe.peer.service ++ rest) = some (pipe.peer.service, rest) := by
  cases hservice : pipe.peer.service with
  | none => simp [loadService, putService, getBe, getBeFrom]
  | some i =>
    obtain ⟨svc, hsvc, hname, hfind⟩ := h.service i hservice
    simp [loadService, putService, hsvc, getBe, getBeFrom, getString_putString hname, hfind]

theorem getArgs_putArgs : getArgs (putArgs pipe.peer.args ++ rest) = (pipe.peer.args, rest) := by
  cases hargs : pipe.peer.args with
  | none => simp [getArgs, putArgs, getBe, getBeFrom]
  | some args => simp [getArgs, putArgs, getBe, getBeFrom, getString_putString (h.args args hargs)]

theorem pipeLoad_pipeSave (rest : List Nat) :
    ∃ pipe', pipeLoad services 3 (pipeSave services pipe ++ rest) = some (pipe', rest) ∧ facts pipe' = facts pipe ∧
      pipe'.closed = if unrestorable services pipe.peer then 1 else pipe.closed := by
  obtain ⟨handle, hpeer, hfacts⟩ := loadPeer_savePeer h rest
  have hchannel : pipe.channel.toNat % 256 ^ 8 = pipe.channel.toNat := Nat.mod_eq_of_lt pipe.channel.isLt
  refine ⟨{ pipe with
    closed := if unrestorable services pipe.peer then 1 else pipe.closed, peer := { pipe.peer with handle } },
    ?_, hfacts, rfl⟩
  rw [pipeLoad, pipeSave, append_assoc, loadService_putService h]
  simp only [Option.bind_eq_bind, Option.bind_some, append_assoc, cons_append, getBe_putBe, hchannel,
    getBe_byte, getArgs_putArgs h, hpeer, BitVec.ofNat_toNat, BitVec.setWidth_eq, Option.pure_def,
    show ¬ (3 = 2) by decide, if_false]

end

end One

/-! ### All pipes -/

def loaded (pipe : Pipe (Peer S)) : Facts × BitVec 8 := (facts pipe, pipe.closed)

def expected (pipe : Pipe (Peer S)) : Facts × BitVec 8 :=
  (facts pipe, if unrestorable services pipe.peer then 1 else pipe.closed)

variable {list : Cell → Option Nat}

section All
variable {services} {p fuel : Nat}

theorem walk_eq (h : Path list Cell.link c l none) (hfuel : l.length < fuel) : walk list fuel (list c) = .ok l := by
  induction l generalizing c fuel with
  | nil =>
    have hnone : list c = none := h
    obtain ⟨fuel, rfl⟩ := Nat.exists_eq_add_one.2 hfuel
    rw [hnone, walk]
  | cons p l ih =>
    obtain ⟨fuel, rfl⟩ := Nat.exists_eq_succ_of_ne_zero (Nat.ne_zero_of_lt hfuel)
    rw [h.1, walk, ih h.2 (by simpa using hfuel)]
    rfl

theorem wf_loaded (h : Wf d ps []) (hp : p ∉ ps) (pipe : Pipe (Peer S)) :
    Wf { d.setPipe p pipe with pipes := prepend d.pipes p } (p :: ps) [] where
  pipes := h.pipes.prepend hp
  signaled := h.signaled
  sub := nil_subset _
  isOpen := by
    intro q
    by_cases hq : q = p
    · simp [setPipe, hq]
    · simp [setPipe, hq, h.isOpen]

/-- The loop loads as many pipes as it is told, the last one first in the list. -/
theorem loadPipes_eq (rest : List Nat) (count : Nat) (hwf : Wf d ps []) (hbelow : ∀ q ∈ ps, q < p)
    (hvalid : ∀ pipe ∈ qs, pipe.peer.Valid services) (hcount : count ≤ qs.length) :
    ∃ (ps' : List Nat) (qs' : List (Pipe (Peer S))) (links : Cell → Option Nat) (pipes : Nat → Option (Pipe (Peer S))),
      loadPipes services 3 count p d (qs.flatMap (pipeSave services) ++ rest) =
        (true, { d with pipes := links, pipe := pipes }) ∧
      Wf { d with pipes := links, pipe := pipes } (ps' ++ ps) [] ∧ ps'.map pipes = qs'.map some ∧
      (∀ q ∈ ps, pipes q = d.pipe q) ∧ qs'.map loaded = (qs.take count).reverse.map (expected services) := by
  induction count generalizing p d ps qs with
  | zero => exact ⟨[], [], d.pipes, d.pipe, rfl, hwf, rfl, fun _ _ => rfl, rfl⟩
  | succ count ih =>
    cases qs with
    | nil => simp at hcount
    | cons pipe qs =>
      obtain ⟨pipe', hload, hfacts, hclosed⟩ := pipeLoad_pipeSave
        (hvalid pipe mem_cons_self) (qs.flatMap (pipeSave services) ++ rest)
      have hp : p ∉ ps := fun hmem => lt_irrefl _ (hbelow p hmem)
      have hbelow' : ∀ q ∈ p :: ps, q < p + 1 := by
        intro q hq
        obtain rfl | hq := mem_cons.1 hq
        · exact Nat.lt_succ_self q
        · exact Nat.lt_succ_of_lt (hbelow q hq)
      obtain ⟨ps', qs', links, pipes, heq, hwf', hpipes, hkeep, hall⟩ := ih (wf_loaded hwf hp pipe') hbelow'
        (forall_mem_cons.1 hvalid).2 (by simpa using hcount)
      have hself : pipes p = some pipe' := by
        rw [hkeep p mem_cons_self]
        exact Function.update_self ..
      refine ⟨ps' ++ [p], qs' ++ [pipe'], links, pipes, ?_, ?_, ?_, ?_, ?_⟩
      · rw [flatMap_cons, append_assoc, loadPipes, hload]
        exact heq
      · rw [append_assoc]
        exact hwf'
      · rw [map_append, map_append, hpipes, map_singleton, map_singleton, hself]
      · intro q hq
        rw [hkeep q (mem_cons_of_mem _ hq)]
        exact Function.update_of_ne (fun hqp : q = p => hp (hqp ▸ hq)) ..
      · rw [take_succ_cons, reverse_cons, map_append, map_append, hall]
        simp [loaded, expected, hfacts, hclosed]

/-- The loop at the end signals the pipes that want something, and no others: a pipe that is closed
is not closed again. -/
theorem wakePipes_eq (hwf : Wf d ps sig) (hpath : Path d.pipes Cell.link c l none) (hl : l ⊆ ps) :
    ∃ links sig' irq, Linked links sig' ∧
      (∀ q, q ∈ sig' ↔ q ∈ sig ∨ q ∈ l ∧ ∃ pipe, d.pipe q = some pipe ∧ pipe.wanted ≠ 0) ∧
      ∀ fuel, l.length + ps.length < fuel →
        wakePipes fuel d (d.pipes c) = .ok { d with signaledPipes := links, irq := irq } := by
  induction l generalizing d sig c with
  | nil =>
    refine ⟨d.signaledPipes, sig, d.irq, hwf.signaled, by simp, fun fuel hfuel => ?_⟩
    have hnone : d.pipes c = none := hpath
    obtain ⟨fuel, rfl⟩ := Nat.exists_eq_succ_of_ne_zero (Nat.ne_zero_of_lt hfuel)
    rw [hnone, wakePipes]
  | cons p l ih =>
    have hp : p ∈ ps := hl mem_cons_self
    obtain ⟨pipe, hpipe⟩ := hwf.exists_pipe hp
    -- what the loop does to this pipe
    obtain ⟨links, sig₁, irq, hlinks, hmem, hwake⟩ : ∃ links sig₁ irq, Linked links sig₁ ∧
        (∀ q, q ∈ sig₁ ↔ q ∈ sig ∨ q = p ∧ pipe.wanted ≠ 0) ∧
        ∀ fuel, ps.length < fuel → wakeWanting fuel d p pipe = .ok { d with signaledPipes := links, irq := irq } := by
      by_cases hwanted : pipe.wanted = 0
      · refine ⟨d.signaledPipes, sig, d.irq, hwf.signaled, by simp [hwanted], fun fuel _ => ?_⟩
        rw [wakeWanting, if_neg (not_not.2 hwanted)]
      refine ⟨_, signal p sig, true, hwf.signaled.signal, ?_, fun fuel hfuel => ?_⟩
      · intro q
        rw [signal]
        split
        next hsig =>
          refine ⟨Or.inl, fun h => h.elim id ?_⟩
          intro h
          exact h.1 ▸ hsig
        · rw [mem_cons, or_comm, and_iff_left hwanted]
      · have hsame : (some { pipe with wanted := pipe.wanted ||| (pipe.wanted.setWidth 32).setWidth 8 } : Option (Pipe (Peer S))) =
            d.pipe p := by
          rw [hpipe, BitVec.setWidth_setWidth_of_le _ (by decide), BitVec.setWidth_eq, BitVec.or_self]
        rw [wakeWanting, if_pos hwanted, wake_eq hwf hfuel hpipe, hsame, Function.update_eq_self]
    have hsub : sig₁ ⊆ ps := by
      intro q hq
      obtain hq | ⟨rfl, -⟩ := (hmem q).1 hq
      · exact hwf.sub hq
      · exact hp
    obtain ⟨links', sig', irq', hlinks', hmem', hrest⟩ := ih
      (d := { d with signaledPipes := links, irq := irq }) (c := .link p)
      ⟨hwf.pipes, hlinks, hsub, hwf.isOpen⟩ hpath.2 (fun q hq => hl (mem_cons_of_mem _ hq))
    refine ⟨links', sig', irq', hlinks', ?_, fun fuel hfuel => ?_⟩
    · intro q
      rw [hmem', hmem, mem_cons]
      have hthis : (q = p ∧ pipe.wanted ≠ 0) ↔ (q = p ∧ ∃ pipe, d.pipe q = some pipe ∧ pipe.wanted ≠ 0) := by
        constructor
        · intro h
          exact ⟨h.1, pipe, h.1 ▸ hpipe, h.2⟩
        · intro h
          obtain ⟨rfl, pipe', hpipe', hwanted⟩ := h
          obtain rfl : pipe = pipe' := Option.some.inj (hpipe.symm.trans hpipe')
          exact ⟨rfl, hwanted⟩
      rw [hthis, or_and_right, or_assoc]
    · obtain ⟨fuel, rfl⟩ := Nat.exists_eq_succ_of_ne_zero (Nat.ne_zero_of_lt hfuel)
      rw [length_cons] at hfuel
      have hclose : closeClosed fuel { d with signaledPipes := links, irq := irq } p pipe =
          .ok { d with signaledPipes := links, irq := irq } := by
        rw [closeClosed]
        split
        next hclosed => simp only [close, hpipe, hclosed, if_false]
        · rfl
      rw [hpath.1, wakePipes]
      simp only [hpipe, hwake fuel (by omega), ok_bind, hclose]
      exact hrest fuel (by omega)

structure SameRegisters (d d' : PipeDevice (Peer S)) : Prop where
  address : d'.address = d.address
  size : d'.size = d.size
  status : d'.status = d.status
  channel : d'.channel = d.channel
  wakes : d'.wakes = d.wakes
  paramsAddr : d'.paramsAddr = d.paramsAddr

theorem loadRegisters_saveRegisters (d₀ d : PipeDevice (Peer S)) :
    loadRegisters 3 d₀ (saveRegisters d ++ rest) = ({ d₀ with
      address := d.address, size := d.size, status := d.status, channel := d.channel, wakes := d.wakes
      paramsAddr := d.paramsAddr }, rest) := by
  have h64 (v : BitVec 64) : v.toNat % 256 ^ 8 = v.toNat := Nat.mod_eq_of_lt v.isLt
  have h32 (v : BitVec 32) : v.toNat % 256 ^ 4 = v.toNat := Nat.mod_eq_of_lt v.isLt
  simp only [loadRegisters, saveRegisters, append_assoc, getBe_putBe, h64, h32, BitVec.ofNat_toNat,
    BitVec.setWidth_eq, show ¬ (3 = 2) by decide, if_false]

def loadCount (n : Nat) : Nat := if n % 256 ^ 4 < 2 ^ 31 then n % 256 ^ 4 else 0

theorem loadCount_le (n : Nat) : loadCount n ≤ n := by
  rw [loadCount]
  split
  · exact Nat.mod_le _ _
  · exact Nat.zero_le _

theorem loadCount_eq_iff (n : Nat) : loadCount n = n ↔ n < 2 ^ 31 := by
  rw [loadCount]
  split <;> omega

theorem map_pipe (hwf : Wf d ps sig) : ps.map d.pipe = (ps.filterMap d.pipe).map some := by
  have hopen : ∀ p ∈ ps, (d.pipe p).isSome = true := fun p hp => (hwf.isOpen p).2 hp
  clear hwf
  induction ps with
  | nil => rfl
  | cons p ps ih =>
    obtain ⟨pipe, hpipe⟩ := Option.isSome_iff_exists.1 (hopen p mem_cons_self)
    rw [map_cons, filterMap_cons_some hpipe, map_cons, hpipe, ih (forall_mem_cons.1 hopen).2]

theorem length_filterMap_pipe (hwf : Wf d ps sig) : (ps.filterMap d.pipe).length = ps.length := by
  have := congrArg List.length (map_pipe hwf)
  rw [length_map, length_map] at this
  exact this.symm

theorem reload_eq (hwf : Wf d ps sig) (hvalid : ∀ p ∈ ps, ∀ pipe, d.pipe p = some pipe → pipe.peer.Valid services) :
    ∃ (d' : PipeDevice (Peer S)) (ps' : List Nat) (qs' : List (Pipe (Peer S))) (sig' : List Nat),
      (∀ fuel, 2 * ps.length < fuel → reload services fuel d = .ok (0, d')) ∧ SameRegisters d d' ∧
      Linked d'.pipes ps' ∧ ps'.map d'.pipe = qs'.map some ∧
      qs'.map loaded = ((ps.filterMap d.pipe).take (loadCount ps.length)).reverse.map (expected services) ∧
      Linked d'.signaledPipes sig' ∧ ∀ q, q ∈ sig' ↔ q ∈ ps' ∧ ∃ pipe, d'.pipe q = some pipe ∧ pipe.wanted ≠ 0 := by
  have hlength := length_filterMap_pipe hwf
  have hvalid' : ∀ pipe ∈ ps.filterMap d.pipe, pipe.peer.Valid services := by
    intro pipe hpipe
    obtain ⟨p, hp, heq⟩ := mem_filterMap.1 hpipe
    exact hvalid p hp pipe heq
  let d₀ : PipeDevice (Peer S) := { (init : PipeDevice (Peer S)) with
    address := d.address, size := d.size, status := d.status, channel := d.channel, wakes := d.wakes
    paramsAddr := d.paramsAddr }
  obtain ⟨ps', qs', links, pipes, hload, hwf', hpipes, -, hall⟩ := loadPipes_eq (p := 0) []
    (loadCount ps.length) (show Wf d₀ [] [] from Wf.init.congr rfl rfl fun _ => rfl) (by simp) hvalid'
    (by rw [hlength]; exact loadCount_le _)
  rw [append_nil] at hload hwf'
  obtain ⟨links', sig', irq', hlinks', hmem', hwake⟩ := wakePipes_eq hwf' hwf'.pipes (List.Subset.refl _)
  refine ⟨{ d₀ with pipes := links, pipe := pipes, signaledPipes := links', irq := irq' }, ps', qs', sig',
    fun fuel hfuel => ?_, ⟨rfl, rfl, rfl, rfl, rfl, rfl⟩, hwf'.pipes, hpipes, hall, hlinks', ?_⟩
  rotate_left
  · intro q
    rw [hmem' q]
    simp
  · have hcount : ps'.length ≤ ps.length := by
      have h₁ := congrArg List.length hpipes
      have h₂ := congrArg List.length hall
      simp only [length_map, length_reverse, length_take] at h₁ h₂
      omega
    have hsave : goldfishPipeSave services fuel d = .ok (saveRegisters d ++ (putBe 4 ps.length ++
        (ps.filterMap d.pipe).flatMap (pipeSave services))) := by
      rw [goldfishPipeSave, walk_eq hwf.pipes (by omega)]
      rfl
    have hnumber : (if ps.length % 256 ^ 4 < 2 ^ 31 then ps.length % 256 ^ 4 else 0) = loadCount ps.length := rfl
    rw [reload, hsave, ok_bind, goldfishPipeLoad, if_neg (by decide), loadRegisters_saveRegisters]
    simp only [getBe_putBe, hnumber]
    rw [hload]
    simp only [hwake fuel (by omega), ok_bind]
    rfl

end All

/-! ### Snapshots -/

/-- A device `d'` is what is expected of a loaded snapshot of `d`: the same registers, the pipes with
their facts, the last one first, and every closed pipe signalled as closed. -/
structure Restored (d d' : PipeDevice (Peer S)) : Prop where
  registers : SameRegisters d d'
  pipes : ∃ ps ps', Linked d.pipes ps ∧ Linked d'.pipes ps' ∧
    (ps'.filterMap d'.pipe).map facts = ((ps.filterMap d.pipe).map facts).reverse
  told : ∃ ps' sig', Linked d'.pipes ps' ∧ Linked d'.signaledPipes sig' ∧
    ∀ p ∈ ps', ∀ pipe, d'.pipe p = some pipe → pipe.closed ≠ 0 →
      p ∈ sig' ∧ pipe.wanted &&& pipeWakeClosed.setWidth 8 ≠ 0

def SnapshotRestored (d : PipeDevice (Peer S)) : Prop :=
  ∃ n d', (∀ fuel, n ≤ fuel → reload services fuel d = .ok (0, d')) ∧ Restored d d'

section Snapshots
variable {services}

theorem linked_unique {l' : List Nat} (h : Linked list l) (h' : Linked list l') : l = l' :=
  path_unique h h' (fun _ _ => nofun) (fun _ _ => nofun)

theorem filterMap_pipe {d' : PipeDevice (Peer S)} (h : ps.map d'.pipe = qs.map some) : ps.filterMap d'.pipe = qs := by
  have := congrArg (List.filterMap id) h
  simpa [Function.comp_def] using this

end Snapshots

/-- What a device tells the guest of after a snapshot: the pipes that are closed when they are loaded
had `PIPE_WAKE_CLOSED` among their wanted flags, and there are not too many to count. -/
def Tells (d : PipeDevice (Peer S)) (ps : List Nat) : Prop :=
  ps.length < 2 ^ 31 ∧
    ∀ p ∈ ps, ∀ pipe, d.pipe p = some pipe → pipe.closed ≠ 0 ∨ unrestorable services pipe.peer = true →
      pipe.wanted &&& pipeWakeClosed.setWidth 8 ≠ 0

section Snapshots
variable {services}

section
variable (hwf : Wf d ps sig)
  (hvalid : ∀ p ∈ ps, ∀ pipe, d.pipe p = some pipe → pipe.peer.Valid services)
include hwf hvalid

theorem SnapshotRestored.tells (hrestored : SnapshotRestored services d) : Tells services d ps := by
  obtain ⟨d', ps', qs', sig', hreload, hregisters, hps', hpipes, hall, hsig', hmem⟩ := reload_eq hwf hvalid
  have hlength := length_filterMap_pipe hwf
  obtain ⟨n, d'', hreload'', hrestored⟩ := hrestored
  obtain rfl : d' = d'' := by
    have h₁ := hreload (n + 2 * ps.length + 1) (by omega)
    have h₂ := hreload'' (n + 2 * ps.length + 1) (by omega)
    rw [h₁] at h₂
    exact congrArg Prod.snd (Except.ok.inj h₂)
  -- as many pipes are loaded as were saved
  have hcount : loadCount ps.length = ps.length := by
    obtain ⟨qs₁, qs₂, hqs₁, hqs₂, hfacts⟩ := hrestored.pipes
    obtain rfl := linked_unique hwf.pipes hqs₁
    obtain rfl := linked_unique hps' hqs₂
    have h₁ := congrArg List.length hfacts
    have h₂ := congrArg List.length hall
    rw [filterMap_pipe hpipes] at h₁
    simp only [length_map, length_reverse, length_take] at h₁ h₂
    have := loadCount_le ps.length
    omega
  refine ⟨(loadCount_eq_iff _).1 hcount, ?_⟩
  intro p hp pipe hpipe hclosed
  rw [hcount, ← hlength, take_length] at hall
  -- the pipe that this one is loaded as
  obtain ⟨pipe', hpipe', hloaded⟩ : ∃ pipe' ∈ qs', loaded pipe' = expected services pipe := by
    have hin : expected services pipe ∈ qs'.map loaded := by
      rw [hall]
      exact mem_map_of_mem (mem_reverse.2 (mem_filterMap.2 ⟨p, hp, hpipe⟩))
    exact mem_map.1 hin
  obtain ⟨p', hp', hat⟩ : ∃ p' ∈ ps', d'.pipe p' = some pipe' := by
    have hin : some pipe' ∈ ps'.map d'.pipe := by
      rw [hpipes]
      exact mem_map_of_mem hpipe'
    exact mem_map.1 hin
  obtain ⟨ps₁, sig₁, hps₁, -, htold⟩ := hrestored.told
  obtain rfl := linked_unique hps' hps₁
  have hwanted : pipe'.wanted = pipe.wanted := congrArg (Facts.wanted ∘ Prod.fst) hloaded
  have hclosed' : pipe'.closed = if unrestorable services pipe.peer then 1 else pipe.closed :=
    congrArg Prod.snd hloaded
  rw [← hwanted]
  refine (htold p' hp' pipe' hat ?_).2
  rw [hclosed']
  split
  · decide
  next hno => exact hclosed.resolve_right hno

theorem Tells.snapshotRestored (hcond : Tells services d ps) : SnapshotRestored services d := by
  obtain ⟨d', ps', qs', sig', hreload, hregisters, hps', hpipes, hall, hsig', hmem⟩ := reload_eq hwf hvalid
  have hlength := length_filterMap_pipe hwf
  obtain ⟨hfew, htold⟩ := hcond
  rw [(loadCount_eq_iff _).2 hfew, ← hlength, take_length] at hall
  refine ⟨2 * ps.length + 1, d', fun fuel hfuel => hreload fuel (by omega), hregisters, ?_, ?_⟩
  · refine ⟨ps, ps', hwf.pipes, hps', ?_⟩
    have := congrArg (List.map Prod.fst) hall
    rw [map_map, map_map, map_reverse] at this
    rw [filterMap_pipe hpipes]
    exact this
  · refine ⟨ps', sig', hps', hsig', ?_⟩
    intro p' hp' pipe' hpipe' hclosed'
    have hin : loaded pipe' ∈ (ps.filterMap d.pipe).reverse.map (expected services) := by
      rw [← hall, ← filterMap_pipe hpipes]
      exact mem_map_of_mem (mem_filterMap.2 ⟨p', hp', hpipe'⟩)
    obtain ⟨pipe, hpipe, hloaded⟩ := mem_map.1 hin
    obtain ⟨p, hp, hat⟩ := mem_filterMap.1 (mem_reverse.1 hpipe)
    have hwanted : pipe.wanted = pipe'.wanted := congrArg (Facts.wanted ∘ Prod.fst) hloaded
    have hclosed : (if unrestorable services pipe.peer then 1 else pipe.closed) = pipe'.closed :=
      congrArg Prod.snd hloaded
    have hflag : pipe'.wanted &&& pipeWakeClosed.setWidth 8 ≠ 0 := by
      rw [← hwanted]
      refine htold p hp pipe hat ?_
      rw [← hclosed] at hclosed'
      split at hclosed'
      next hun => exact Or.inr hun
      · exact Or.inl hclosed'
    refine ⟨(hmem p').2 ⟨hp', pipe', hpipe', ?_⟩, hflag⟩
    intro hzero
    rw [hzero] at hflag
    exact hflag (by decide)

end

/-- A snapshot is restored exactly if there are fewer than 2^31 pipes and `PIPE_WAKE_CLOSED` was among
the wanted flags, when it was saved, of every pipe that is closed when it is loaded. -/
theorem snapshotRestored_iff (hwf : Wf d ps sig)
    (hvalid : ∀ p ∈ ps, ∀ pipe, d.pipe p = some pipe → pipe.peer.Valid services) :
    SnapshotRestored services d ↔ Tells services d ps :=
  ⟨SnapshotRestored.tells hwf hvalid, Tells.snapshotRestored hwf hvalid⟩

end Snapshots

/-- A service whose state is one value of the stream. -/
def counting : SaveLoad Nat where
  save st := [st]
  load _ bytes := bytes.head?.map fun st => (st, bytes.tail)
  load_save st _ _ := ⟨st, rfl⟩

/-- `tcp` has no callbacks. -/
def tcpAndCounter : List (PipeService Nat) := [⟨[0x74, 0x63, 0x70], none⟩, ⟨[0x63], some counting⟩]

def withPipe (d : PipeDevice (Peer Nat)) (p : Nat) (pipe : Pipe (Peer Nat)) : PipeDevice (Peer Nat) :=
  { d with pipes := prepend d.pipes p, pipe := Function.update d.pipe p (some pipe) }

theorem wf_withPipe {d : PipeDevice (Peer Nat)} {p : Nat} (h : Wf d ps sig) (hp : p ∉ ps) (pipe : Pipe (Peer Nat)) :
    Wf (withPipe d p pipe) (p :: ps) sig where
  pipes := h.pipes.prepend hp
  signaled := h.signaled
  sub _ hq := mem_cons_of_mem _ (h.sub hq)
  isOpen := by
    intro q
    by_cases hq : q = p
    · simp [withPipe, hq]
    · simp [withPipe, hq, h.isOpen]

/-- A pipe to which the guest has written the beginning of a name. -/
def connecting : Pipe (Peer Nat) := ⟨5, 0, 0, ⟨none, none, .connector [0x70, 0x69]⟩⟩

def counter : Pipe (Peer Nat) := ⟨6, 0, 0, ⟨some 1, none, .state 7⟩⟩

/-- A pipe to `tcp` of which the guest wants to hear when it is closed. -/
def waiting : Pipe (Peer Nat) := ⟨7, pipeWakeClosed.setWidth 8, 0, ⟨some 0, some [0x35], .state 0⟩⟩

/-- A connector that is closed, and the guest has not been told yet. -/
def hungUp : Pipe (Peer Nat) := ⟨8, pipeWakeClosed.setWidth 8, 1, ⟨none, none, .connector []⟩⟩

def fourPipes : PipeDevice (Peer Nat) :=
  withPipe (withPipe (withPipe (withPipe PipeDevice.init 0 connecting) 1 counter) 2 waiting) 3 hungUp

theorem wf_fourPipes : Wf fourPipes [3, 2, 1, 0] [] :=
  wf_withPipe (wf_withPipe (wf_withPipe (wf_withPipe Wf.init (by decide) _) (by decide) _) (by decide) _) (by decide) _

theorem forall_fourPipes {P : Pipe (Peer Nat) → Prop} (hconnecting : P connecting) (hcounter : P counter)
    (hwaiting : P waiting) (hhungUp : P hungUp) : ∀ p ∈ [3, 2, 1, 0], ∀ pipe, fourPipes.pipe p = some pipe → P pipe := by
  intro p hp pipe hpipe
  simp only [mem_cons, not_mem_nil, or_false] at hp
  rcases hp with rfl | rfl | rfl | rfl <;> cases hpipe <;> assumption

theorem pipes_restored : SnapshotRestored tcpAndCounter fourPipes := by
  refine (snapshotRestored_iff wf_fourPipes (forall_fourPipes ?_ ?_ ?_ ?_)).2 ⟨by decide, forall_fourPipes ?_ ?_ ?_ ?_⟩
  · exact ⟨fun _ => ⟨rfl, _, rfl, by decide⟩, nofun, nofun, nofun⟩
  · refine ⟨nofun, fun i hi => ?_, nofun, fun i _ hi _ => ⟨7, rfl⟩⟩
    obtain rfl : 1 = i := Option.some.inj hi
    exact ⟨_, rfl, ⟨by decide, by decide, by decide⟩, rfl⟩
  · refine ⟨nofun, fun i hi => ?_, fun args hargs => ?_, fun i _ hi _ => ⟨0, rfl⟩⟩
    · obtain rfl : 0 = i := Option.some.inj hi
      exact ⟨_, rfl, ⟨by decide, by decide, by decide⟩, rfl⟩
    · obtain rfl := Option.some.inj hargs
      exact ⟨by decide, by decide, by decide⟩
  · exact ⟨fun _ => ⟨rfl, _, rfl, by decide⟩, nofun, nofun, nofun⟩
  all_goals decide

def connected : Pipe (Peer Nat) := ⟨5, 0, 0, ⟨some 0, none, .state 0⟩⟩

def onePipe : PipeDevice (Peer Nat) := withPipe PipeDevice.init 0 connected

/-- A pipe to a service without callbacks is closed when it is loaded, and the guest is not told. -/
theorem connected_not_restored : ¬ SnapshotRestored tcpAndCounter onePipe := by
  intro hrestored
  have htells := hrestored.tells (wf_withPipe Wf.init (by decide) connected) ?_
  · exact htells.2 0 (mem_singleton.2 rfl) connected rfl (Or.inr rfl) rfl
  · intro p hp pipe hpipe
    obtain rfl : p = 0 := mem_singleton.1 hp
    obtain rfl : connected = pipe := Option.some.inj hpipe
    refine ⟨nofun, ?_, nofun, ?_⟩
    · intro i hi
      obtain rfl : 0 = i := Option.some.inj hi
      exact ⟨_, rfl, ⟨by decide, by decide, by decide⟩, rfl⟩
    · intro i callbacks hi
      obtain rfl : 0 = i := Option.some.inj hi
      exact nofun

end GemDroid.Goldfish
