import GemDroid.Chr.CBuffer
import GemDroid.Lib.Reach

/-! Half of a charpipe (`android/charpipe.c`).

What is written is passed to the peer at once as far as it takes it. The rest goes into a
chain of buffers of 512 bytes and is passed on by `charpipehalf_poll`. Before a delivery
the peer is asked how much it can read, if it has a handler for that; the poll asks if
its own half has one. -/
namespace GemDroid.Chr
open Lib List Option

variable {bip : CBuffer}

variable {P : Type}

/-! ### The model -/

def bipBufferSize : Nat := 512

/-- The device at the other end. -/
structure PeerDev (P : Type) where
  canRead : P → Nat × P
  read : P → List UInt8 → P

variable {dev : PeerDev P}

structure Handlers where
  peerOpen : Bool
  peerRead : Bool
  peerCanRead : Bool
  ownCanRead : Bool
deriving DecidableEq, Repr

/-- A call of the peer's `chr_read`: whether the peer has a `chr_can_read` and what it has
just reported. -/
structure Delivery where
  peerCanRead : Bool
  reported : Option Nat
  bytes : List UInt8
deriving DecidableEq, Repr

/-- A `CharPipeHalf` with the state of its peer, the free buffers and the deliveries it
has made. -/
structure Half (P : Type) where
  handlers : Handlers
  peer : P
  bips : List CBuffer
  freeBips : List CBuffer
  deliveries : List Delivery

def bipBufferAlloc (freeBips : List CBuffer) : CBuffer × List CBuffer :=
  match freeBips with
  | [] => (CBuffer.reset (fun _ => 0) bipBufferSize (by decide), [])
  | bip :: rest => (CBuffer.reset bip.buff bipBufferSize (by decide), rest)

section Model
variable (dev : PeerDev P)

def qemuChrCanRead (s : Half P) : Nat × P :=
  if s.handlers.peerCanRead then dev.canRead s.peer else (0, s.peer)

def qemuChrRead (s : Half P) (reported : Option Nat) (bytes : List UInt8) : Half P :=
  { s with
    peer := dev.read s.peer bytes
    deliveries := s.deliveries ++ [⟨s.handlers.peerCanRead, reported, bytes⟩] }

/-- The loop that writes directly to the peer, with the bytes that are left in the end.
A round that does not end it delivers at least one byte. -/
def directLoop : Nat → Half P → List UInt8 → Half P × List UInt8
  | 0, s, buf => (s, buf)
  | rounds + 1, s, buf =>
    if buf = [] then (s, buf)
    else if s.handlers.peerCanRead then
      let asked := qemuChrCanRead dev s
      let s := { s with peer := asked.2 }
      if asked.1 = 0 then (s, buf)
      else
        let size := if asked.1 > buf.length then buf.length else asked.1
        directLoop rounds (qemuChrRead dev s (some asked.1) (buf.take size)) (buf.drop size)
    else (qemuChrRead dev s none buf, [])

/-- The loop that buffers bytes: `bip` is the last buffer of the chain, behind `done`. -/
def fillChain : Nat → List CBuffer → CBuffer → List CBuffer → List UInt8 → List CBuffer × List CBuffer
  | 0, done, bip, freeBips, _ => (done ++ [bip], freeBips)
  | rounds + 1, done, bip, freeBips, buf =>
    let (bip, rest) := bip.write buf
    if rest = [] then (done ++ [bip], freeBips)
    else
      let (next, freeBips) := bipBufferAlloc freeBips
      fillChain rounds (done ++ [bip]) next freeBips rest

def bufferRest (s : Half P) (buf : List UInt8) : Half P :=
  if buf = [] then s
  else
    match s.bips.getLast? with
    | none =>
      let (bip, freeBips) := bipBufferAlloc s.freeBips
      let (bips, freeBips) := fillChain (buf.length + 1) [] bip freeBips buf
      { s with bips := bips, freeBips := freeBips }
    | some bip =>
      let (bips, freeBips) := fillChain (buf.length + 1) s.bips.dropLast bip s.freeBips buf
      { s with bips := bips, freeBips := freeBips }

def charpipehalfWrite (s : Half P) (buf : List UInt8) : Half P :=
  if s.bips = [] ∧ s.handlers.peerOpen ∧ s.handlers.peerRead then
    let (s, rest) := directLoop dev buf.length s buf
    bufferRest s rest
  else bufferRest s buf

/-- A round of `charpipehalf_poll` for a first buffer that is not empty: the delivery, or
nothing if the peer takes none. -/
def pollRound (s : Half P) (bip : CBuffer) (rest : List CBuffer) : Half P × Bool :=
  if s.handlers.ownCanRead then
    let asked := qemuChrCanRead dev s
    let s := { s with peer := asked.2 }
    if asked.1 = 0 then (s, false)
    else
      let size := if bip.count > asked.1 then asked.1 else bip.count
      let avail := if bip.readAvail > size then size else bip.readAvail
      ({ qemuChrRead dev s (some asked.1) (bip.peek avail) with bips := bip.readStep avail :: rest }, true)
  else
    let avail := if bip.readAvail > bip.count then bip.count else bip.readAvail
    ({ qemuChrRead dev s none (bip.peek avail) with bips := bip.readStep avail :: rest }, true)

/-- The loop of `charpipehalf_poll`; there is no result if it does not end. -/
def pollLoop : Nat → Half P → Option (Half P)
  | 0, _ => none
  | fuel + 1, s =>
    match s.bips with
    | [] => some s
    | bip :: rest =>
      if bip.count = 0 then pollLoop fuel { s with bips := rest, freeBips := bip :: s.freeBips }
      else
        let (s, goOn) := pollRound dev s bip rest
        if goOn then pollLoop fuel s else some s

def charpipehalfPoll (fuel : Nat) (s : Half P) : Option (Half P) :=
  if s.handlers.peerOpen ∧ s.handlers.peerRead then pollLoop dev fuel s else some s

end Model

/-! ### What is delivered and what is buffered -/

section Contents

def chain (bips : List CBuffer) : List UInt8 := bips.flatMap CBuffer.contents

def buffered (s : Half P) : List UInt8 := chain s.bips

def delivered (s : Half P) : List UInt8 := s.deliveries.flatMap Delivery.bytes

def Paced (d : Delivery) : Prop := d.peerCanRead = true → ∃ cap, d.reported = some cap ∧ d.bytes.length ≤ cap

def AllPaced (s : Half P) : Prop := ∀ d ∈ s.deliveries, Paced d

@[simp] theorem chain_cons (bip : CBuffer) (rest : List CBuffer) : chain (bip :: rest) = bip.contents ++ chain rest := rfl

@[simp] theorem chain_append (a b : List CBuffer) : chain (a ++ b) = chain a ++ chain b := flatMap_append

theorem chain_singleton (bip : CBuffer) : chain [bip] = bip.contents := by
  rw [chain_cons]
  exact append_nil _

theorem delivered_read (s : Half P) (reported : Option Nat) (bytes : List UInt8) :
    delivered (qemuChrRead dev s reported bytes) = delivered s ++ bytes := by
  simp [delivered, qemuChrRead]

variable {s s' : Half P} {fuel : Nat}

theorem allPaced_read (dev : PeerDev P) (h : AllPaced s) {reported : Option Nat} {bytes : List UInt8}
    (hd : Paced ⟨s.handlers.peerCanRead, reported, bytes⟩) : AllPaced (qemuChrRead dev s reported bytes) :=
  forall_mem_append.mpr ⟨h, forall_mem_singleton.mpr hd⟩

/-! ### Writing -/

structure Direct (s : Half P) (buf : List UInt8) (r : Half P × List UInt8) : Prop where
  kept : delivered r.1 ++ r.2 = delivered s ++ buf
  paced : AllPaced s → AllPaced r.1
  bips : r.1.bips = s.bips
  handlers : r.1.handlers = s.handlers

theorem directLoop_direct (dev : PeerDev P) (rounds : Nat) (s : Half P) (buf : List UInt8) :
    Direct s buf (directLoop dev rounds s buf) := by
  induction rounds generalizing s buf with
  | zero => exact ⟨rfl, id, rfl, rfl⟩
  | succ rounds ih =>
    simp only [directLoop]
    split
    · exact ⟨rfl, id, rfl, rfl⟩
    split
    · split
      · exact ⟨rfl, id, rfl, rfl⟩
      · -- a piece that the peer has room for, and then the rest
        generalize hsize : (if (qemuChrCanRead dev s).1 > buf.length then buf.length
          else (qemuChrCanRead dev s).1) = size
        have hle : size ≤ (qemuChrCanRead dev s).1 := by
          rw [← hsize]
          split <;> omega
        have hrest := ih (qemuChrRead dev { s with peer := (qemuChrCanRead dev s).2 }
          (some (qemuChrCanRead dev s).1) (buf.take size)) (buf.drop size)
        refine ⟨?_, fun hpaced => hrest.paced ?_, hrest.bips, hrest.handlers⟩
        · rw [hrest.kept, delivered_read, append_assoc, take_append_drop]
          rfl
        · apply allPaced_read
          · exact hpaced
          · exact fun _ => ⟨_, rfl, (length_take_le size buf).trans hle⟩
    · rename_i hnone
      refine ⟨?_, fun hpaced => allPaced_read dev hpaced fun hhas => absurd hhas hnone, rfl, rfl⟩
      rw [delivered_read, append_nil]

theorem bipBufferAlloc_empty (freeBips : List CBuffer) :
    (bipBufferAlloc freeBips).1.contents = [] ∧ (bipBufferAlloc freeBips).1.count < (bipBufferAlloc freeBips).1.size := by
  cases freeBips with
  | nil => exact ⟨rfl, by decide⟩
  | cons bip rest => exact ⟨rfl, (by decide : 0 < bipBufferSize)⟩

/-- All bytes find a place: after the first buffer of a chain every one takes some. -/
theorem fillChain_kept (rounds : Nat) (done : List CBuffer) (bip : CBuffer) (freeBips : List CBuffer)
    (buf : List UInt8) (hne : buf ≠ []) (h : buf.length < rounds ∨ buf.length ≤ rounds ∧ bip.count < bip.size) :
    chain (fillChain rounds done bip freeBips buf).1 = chain done ++ bip.contents ++ buf := by
  induction rounds generalizing done bip freeBips buf with
  | zero =>
    have := length_pos_of_ne_nil hne
    omega
  | succ rounds ih =>
    have hwrote := bip.write_wrote buf
    have hkept := hwrote.kept
    have hlen := congrArg length hkept
    simp only [length_append, CBuffer.length_contents] at hlen
    simp only [fillChain]
    split
    · rename_i hrest
      rw [hrest, append_nil] at hkept
      rw [chain_append, chain_singleton, hkept, append_assoc]
    rename_i hrest
    have hfull := hwrote.full.resolve_left hrest
    have hsize := hwrote.size
    have hle := bip.count_le
    obtain ⟨hempty, hroom⟩ := bipBufferAlloc_empty freeBips
    rw [ih _ _ _ _ hrest (.inr ⟨by omega, hroom⟩), hempty, append_nil, chain_append, chain_singleton,
      append_assoc, hkept, append_assoc]

theorem bufferRest_kept (s : Half P) (buf : List UInt8) :
    buffered (bufferRest s buf) = buffered s ++ buf ∧ (bufferRest s buf).deliveries = s.deliveries := by
  rw [bufferRest]
  split
  · rename_i hnil
    rw [hnil, append_nil]
    exact ⟨rfl, rfl⟩
  rename_i hne
  split
  · rename_i hnone
    refine ⟨?_, rfl⟩
    have hbips : s.bips = [] := getLast?_eq_none_iff.mp hnone
    have hfill := fillChain_kept (buf.length + 1) [] (bipBufferAlloc s.freeBips).1 (bipBufferAlloc s.freeBips).2 buf
      hne (.inl (by omega))
    rw [(bipBufferAlloc_empty s.freeBips).1] at hfill
    rw [buffered, buffered, hbips]
    exact hfill
  · rename_i bip hlast
    refine ⟨?_, rfl⟩
    have hbips : s.bips = s.bips.dropLast ++ [bip] := (dropLast_append_getLast? bip hlast).symm
    have hfill := fillChain_kept (buf.length + 1) s.bips.dropLast bip s.freeBips buf hne (.inl (by omega))
    rw [← chain_singleton bip, ← chain_append, ← hbips] at hfill
    exact hfill

/-- A write delivers some of its bytes if nothing is buffered, and buffers the others. -/
theorem charpipehalfWrite_spec (dev : PeerDev P) (s : Half P) (buf : List UInt8) :
    delivered (charpipehalfWrite dev s buf) ++ buffered (charpipehalfWrite dev s buf) =
        delivered s ++ buffered s ++ buf ∧ (AllPaced s → AllPaced (charpipehalfWrite dev s buf)) := by
  rw [charpipehalfWrite]
  split
  · rename_i hdirect
    have hloop := directLoop_direct dev buf.length s buf
    simp only
    generalize directLoop dev buf.length s buf = r at hloop
    obtain ⟨hbuffered, hdeliveries⟩ := bufferRest_kept r.1 r.2
    have hempty : buffered r.1 = [] := by
      rw [buffered, hloop.bips, hdirect.1]
      rfl
    have hempty' : buffered s = [] := by
      rw [buffered, hdirect.1]
      rfl
    constructor
    · rw [hbuffered, hempty, hempty', nil_append, append_nil, ← hloop.kept, delivered, hdeliveries]
      rfl
    · intro hpaced
      rw [AllPaced, hdeliveries]
      exact hloop.paced hpaced
  · obtain ⟨hbuffered, hdeliveries⟩ := bufferRest_kept s buf
    constructor
    · rw [hbuffered, delivered, hdeliveries, append_assoc]
      rfl
    · intro hpaced
      rw [AllPaced, hdeliveries]
      exact hpaced

/-! ### Polling -/

structure Round (s : Half P) (r : Half P × Bool) : Prop where
  kept : delivered r.1 ++ buffered r.1 = delivered s ++ buffered s
  handlers : r.1.handlers = s.handlers
  paced : (s.handlers.peerCanRead = true → s.handlers.ownCanRead = true) → AllPaced s → AllPaced r.1
  fewer : r.2 = true → r.1.bips.length = s.bips.length ∧ (buffered r.1).length < (buffered s).length

variable {rest : List CBuffer}

theorem round_deliver (hbips : s.bips = bip :: rest)
    {avail : Nat} (hpos : 0 < avail) (hle : avail ≤ bip.readAvail) (reported : Option Nat)
    (hdeliveries : s'.deliveries = s.deliveries) (hhandlers : s'.handlers = s.handlers)
    (hpaced : (s.handlers.peerCanRead = true → s.handlers.ownCanRead = true) →
      s.handlers.peerCanRead = true → ∃ cap, reported = some cap ∧ avail ≤ cap) :
    Round s ({ qemuChrRead dev s' reported (bip.peek avail) with bips := bip.readStep avail :: rest }, true) := by
  have hpeek := bip.peek_append_readStep hle
  have hsplit : bip.peek avail ++ chain (bip.readStep avail :: rest) = buffered s := by
    rw [chain_cons, ← append_assoc, hpeek, buffered, hbips, chain_cons]
  have hsame : delivered s' = delivered s := by rw [delivered, hdeliveries, delivered]
  constructor
  · calc delivered (qemuChrRead dev s' reported (bip.peek avail)) ++ chain (bip.readStep avail :: rest)
        = delivered s ++ (bip.peek avail ++ chain (bip.readStep avail :: rest)) := by
          rw [delivered_read, hsame, append_assoc]
      _ = delivered s ++ buffered s := by rw [hsplit]
  · exact hhandlers
  · intro hown hall
    have hall' : AllPaced s' := by
      rw [AllPaced, hdeliveries]
      exact hall
    have hd : Paced ⟨s'.handlers.peerCanRead, reported, bip.peek avail⟩ := by
      intro hcan
      rw [hhandlers] at hcan
      rw [CBuffer.length_peek]
      exact hpaced hown hcan
    exact allPaced_read dev hall' hd
  · intro _
    have hlen := congrArg length hsplit
    rw [length_append, CBuffer.length_peek] at hlen
    refine ⟨by rw [hbips]; rfl, ?_⟩
    simp only [buffered] at hlen ⊢
    omega

theorem pollRound_round (dev : PeerDev P) (hbips : s.bips = bip :: rest)
    (hcount : bip.count ≠ 0) : Round s (pollRound dev s bip rest) := by
  have hpos := bip.readAvail_pos hcount
  simp only [pollRound]
  split
  · split
    · exact ⟨rfl, rfl, fun _ => id, nofun⟩
    · rename_i hask
      apply round_deliver hbips
      · split_ifs <;> omega
      · split_ifs <;> omega
      · rfl
      · rfl
      · intro _ _
        refine ⟨_, rfl, ?_⟩
        split_ifs <;> omega
  · rename_i hown
    apply round_deliver hbips
    · split_ifs <;> omega
    · split_ifs <;> omega
    · rfl
    · rfl
    · intro himp hcan
      exact absurd (himp hcan) hown

structure Polled (s s' : Half P) : Prop where
  kept : delivered s' ++ buffered s' = delivered s ++ buffered s
  handlers : s'.handlers = s.handlers
  paced : (s.handlers.peerCanRead = true → buffered s ≠ [] → s.handlers.ownCanRead = true) → AllPaced s → AllPaced s'

theorem pollLoop_polled (h : pollLoop dev fuel s = some s') : Polled s s' := by
  induction fuel generalizing s with
  | zero => exact absurd h nofun
  | succ fuel ih =>
    rw [pollLoop] at h
    split at h
    · rw [← some.inj h]
      exact ⟨rfl, rfl, fun _ => id⟩
    rename_i bip rest hbips
    split at h
    · rename_i hcount
      -- an empty buffer goes to the free ones
      have hrest := ih h
      have hsame : buffered { s with bips := rest, freeBips := bip :: s.freeBips } = buffered s := by
        rw [buffered, buffered, hbips, chain_cons, bip.contents_eq_nil.mpr hcount, nil_append]
      refine ⟨?_, hrest.handlers, ?_⟩
      · rw [hrest.kept, hsame]
        rfl
      · have := hrest.paced
        rw [hsame] at this
        exact this
    rename_i hcount
    have hround := pollRound_round dev hbips hcount
    have hdata : buffered s ≠ [] := by
      rw [buffered, hbips, chain_cons]
      intro hnil
      exact hcount (bip.contents_eq_nil.mp (append_eq_nil_iff.mp hnil).1)
    simp only at h
    split at h
    · have hrest := ih h
      refine ⟨hrest.kept.trans hround.kept, hrest.handlers.trans hround.handlers, ?_⟩
      intro himp hall
      apply hrest.paced _ (hround.paced (fun hcan => himp hcan hdata) hall)
      intro hcan _
      rw [hround.handlers] at hcan ⊢
      exact himp hcan hdata
    · rw [← some.inj h]
      exact ⟨hround.kept, hround.handlers, fun himp => hround.paced fun hcan => himp hcan hdata⟩

theorem pollLoop_returns (dev : PeerDev P) (h : s.bips.length + (buffered s).length < fuel) :
    ∃ s', pollLoop dev fuel s = some s' := by
  induction fuel generalizing s with
  | zero => omega
  | succ fuel ih =>
    rw [pollLoop]
    split
    · exact ⟨s, rfl⟩
    rename_i bip rest hbips
    split
    · rename_i hcount
      apply ih
      have hsame : buffered s = chain rest := by
        rw [buffered, hbips, chain_cons, bip.contents_eq_nil.mpr hcount, nil_append]
      rw [hsame, hbips, length_cons] at h
      simp only [buffered]
      omega
    rename_i hcount
    have hround := pollRound_round dev hbips hcount
    simp only
    split
    · rename_i hgoOn
      apply ih
      have := hround.fewer hgoOn
      omega
    · exact ⟨_, rfl⟩

theorem charpipehalfPoll_polled (h : charpipehalfPoll dev fuel s = some s') : Polled s s' := by
  rw [charpipehalfPoll] at h
  split at h
  · exact pollLoop_polled h
  · rw [← some.inj h]
    exact ⟨rfl, rfl, fun _ => id⟩

end Contents

/-! ### Runs -/

section Runs

structure Traced (P : Type) where
  half : Half P
  written : List UInt8

inductive Act where
  | write (buf : List UInt8)
  | poll
  | setHandlers (handlers : Handlers)

/-- A step; between calls either end may set other handlers. -/
def Acts (dev : PeerDev P) (s : Traced P) : Act → Traced P → Prop
  | .write buf, s' => s' = ⟨charpipehalfWrite dev s.half buf, s.written ++ buf⟩
  | .poll, s' => (∃ fuel, charpipehalfPoll dev fuel s.half = some s'.half) ∧ s'.written = s.written
  | .setHandlers handlers, s' => s' = { s with half := { s.half with handlers := handlers } }

def Starts (s : Traced P) : Prop := s.half.bips = [] ∧ s.half.deliveries = [] ∧ s.written = []

def Right (s : Traced P) : Prop := delivered s.half ++ buffered s.half = s.written ∧ AllPaced s.half

/-- A poll that finds data for a peer with a `chr_can_read` is one of a half that has a
`chr_can_read` itself. -/
def Meets (s : Traced P) : Act → Prop
  | .poll =>
    s.half.handlers.peerOpen = true → s.half.handlers.peerRead = true → s.half.handlers.peerCanRead = true →
      buffered s.half ≠ [] → s.half.handlers.ownCanRead = true
  | _ => True

theorem right_step {s s' : Traced P} {a : Act} (h : Right s) (hmeets : Meets s a)
    (hact : Acts dev s a s') : Right s' := by
  cases a with
  | write buf =>
    obtain rfl := hact
    obtain ⟨hkept, hpaced⟩ := charpipehalfWrite_spec dev s.half buf
    refine ⟨?_, hpaced h.2⟩
    rw [← h.1]
    exact hkept
  | poll =>
    obtain ⟨⟨fuel, hpoll⟩, hwritten⟩ := hact
    have hpolled := charpipehalfPoll_polled hpoll
    refine ⟨?_, ?_⟩
    · rw [hpolled.kept, hwritten, h.1]
    · by_cases hopen : s.half.handlers.peerOpen = true ∧ s.half.handlers.peerRead = true
      · exact hpolled.paced (fun hcan hdata => hmeets hopen.1 hopen.2 hcan hdata) h.2
      · rw [charpipehalfPoll, if_neg hopen] at hpoll
        rw [← some.inj hpoll]
        exact h.2
  | setHandlers handlers =>
    obtain rfl := hact
    exact h

/-- In a run whose polls find data for an asking peer only on a half with a `chr_can_read`,
the bytes delivered and those buffered are the bytes written, in order, and no delivery is
larger than the peer has just reported. A poll ends. -/
theorem pipe_right (dev : PeerDev P) {s : Traced P} (h : Reach Starts (fun s a s' => Meets s a ∧ Acts dev s a s') s) :
    Right s ∧ ∃ fuel s', charpipehalfPoll dev fuel s.half = some s' := by
  constructor
  · apply h.invariant
    · intro s ⟨hbips, hdeliveries, hwritten⟩
      rw [Right, AllPaced, delivered, buffered, hbips, hdeliveries, hwritten]
      exact ⟨rfl, nofun⟩
    · intro s a s' hright ⟨hmeets, hact⟩
      exact right_step hright hmeets hact
  · obtain ⟨s', hpoll⟩ := pollLoop_returns dev (Nat.lt_succ_self (s.half.bips.length + (buffered s.half).length))
    by_cases hopen : s.half.handlers.peerOpen = true ∧ s.half.handlers.peerRead = true
    · exact ⟨_, s', by rw [charpipehalfPoll, if_pos hopen]; exact hpoll⟩
    · exact ⟨0, s.half, by rw [charpipehalfPoll, if_neg hopen]⟩

def roomDev : PeerDev Nat := ⟨fun room => (room, room), fun room bytes => room - bytes.length⟩

def peerAsks : Handlers := ⟨true, true, true, false⟩

/-- A half whose peer has room for two bytes. -/
def room2 : Traced Nat := ⟨⟨peerAsks, 2, [], [], []⟩, []⟩

/-- Three bytes have been written, and the half has got a `chr_can_read` of its own. -/
def asking : Half Nat :=
  { charpipehalfWrite roomDev room2.half [1, 2, 3] with handlers := ⟨true, true, true, true⟩ }

/-- A poll then keeps the byte that the peer has no room for. -/
theorem write_room2_right : ∃ half, charpipehalfPoll roomDev 3 asking = some half ∧
    half.deliveries = [⟨true, some 2, [1, 2]⟩] ∧ Right ⟨half, [1, 2, 3]⟩ := by
  have hasking : Reach Starts (fun s a s' => Meets s a ∧ Acts roomDev s a s') ⟨asking, [1, 2, 3]⟩ :=
    .step (a := .setHandlers ⟨true, true, true, true⟩)
      (.step (a := .write [1, 2, 3]) (s := room2) (.start ⟨rfl, rfl, rfl⟩) ⟨trivial, rfl⟩) ⟨trivial, rfl⟩
  have hpoll : (charpipehalfPoll roomDev 3 asking).map Half.deliveries = some [⟨true, some 2, [1, 2]⟩] := by decide
  obtain ⟨half, hhalf, hdeliveries⟩ := map_eq_some_iff.mp hpoll
  have hpolled : Reach Starts (fun s a s' => Meets s a ∧ Acts roomDev s a s') ⟨half, [1, 2, 3]⟩ :=
    .step (a := .poll) hasking ⟨fun _ _ _ _ => rfl, ⟨3, hhalf⟩, rfl⟩
  exact ⟨half, hhalf, hdeliveries, (pipe_right roomDev hpolled).1⟩

/-- Three bytes are written and the third is buffered; the poll delivers it to the peer
that has no room. -/
theorem poll_does_not_ask : ∃ s : Traced Nat, Reach Starts (Acts roomDev) s ∧
    s.half.deliveries = [⟨true, some 2, [1, 2]⟩, ⟨true, none, [3]⟩] ∧ ¬ Right s := by
  have hwrite : Reach Starts (Acts roomDev) ⟨charpipehalfWrite roomDev room2.half [1, 2, 3], [1, 2, 3]⟩ :=
    .step (a := .write [1, 2, 3]) (s := room2) (.start ⟨rfl, rfl, rfl⟩) rfl
  have hpoll : (charpipehalfPoll roomDev 3 (charpipehalfWrite roomDev room2.half [1, 2, 3])).isSome = true := by
    decide
  obtain ⟨half, hhalf⟩ := isSome_iff_exists.mp hpoll
  have hdeliveries : half.deliveries = [⟨true, some 2, [1, 2]⟩, ⟨true, none, [3]⟩] := by
    have : (charpipehalfPoll roomDev 3 (charpipehalfWrite roomDev room2.half [1, 2, 3])).map Half.deliveries =
        some [⟨true, some 2, [1, 2]⟩, ⟨true, none, [3]⟩] := by decide
    rw [hhalf] at this
    exact some.inj this
  refine ⟨⟨half, [1, 2, 3]⟩, .step (a := .poll) hwrite ⟨⟨3, hhalf⟩, rfl⟩, hdeliveries, fun hright => ?_⟩
  have hpaced := hright.2
  simp only [AllPaced, hdeliveries] at hpaced
  obtain ⟨cap, hcap, -⟩ := hpaced ⟨true, none, [3]⟩ (by simp) rfl
  exact absurd hcap nofun

end Runs

end GemDroid.Chr
