import GemDroid.Qemud.Client
import GemDroid.Qemud.Serial
import Mathlib.Tactic.Ring

/-! Messages sent over the serial port of qemud (`qemud_serial_send` of `android/hw-qemud.c`).

A message, behind a frame header if its channel is framed, is cut into packets of at most
`MAX_SERIAL_PAYLOAD` bytes. The receiver of the packets gives each to the client of its channel.

`sent_received`: a message that is framed or fits into a packet arrives once and whole, whatever
pieces the port hands over; a longer one without framing arrives packet by packet. -/
namespace GemDroid.Qemud
open Lib Function List Nat

variable {version : Version} {rounds channel : Nat} {support : Bool}

/-! ### The sender -/

/-- `"0123456789abcdef"` -/
def hexchars : List Nat :=
  [0x30, 0x31, 0x32, 0x33, 0x34, 0x35, 0x36, 0x37, 0x38, 0x39, 0x61, 0x62, 0x63, 0x64, 0x65, 0x66]

def int2hex : Nat → Nat → List Nat
  | 0, _ => []
  | len + 1, val => hexchars.getD ((val >>> (len * 4)) &&& 15) 0 :: int2hex len val

/-- The format with the length in front of the channel. -/
def LegacyFormat (support : Bool) (version : Version) : Prop := support = true ∧ version = .legacy

instance (support : Bool) (version : Version) : Decidable (LegacyFormat support version) :=
  inferInstanceAs (Decidable (_ ∧ _))

def packetHeader (support : Bool) (version : Version) (channel avail : Nat) : List Nat :=
  if LegacyFormat support version then int2hex 4 avail ++ int2hex 2 channel
  else int2hex 2 channel ++ int2hex 4 avail

/-- The loop of `qemud_serial_send`, with the bytes that it writes. -/
def sendLoop (support : Bool) (version : Version) (channel msglen : Nat) : Nat → Bool → List Nat → Nat → List Nat
  | 0, _, _, _ => []
  | rounds + 1, framing, msg, len =>
    if 0 < len then
      let avail := if maxSerialPayload < len then maxSerialPayload else len
      let header := packetHeader support version channel avail
      if framing = true then
        header ++ int2hex 4 msglen ++ msg.take (avail - 4) ++
          sendLoop support version channel msglen rounds false (msg.drop (avail - 4)) (len - 4 - (avail - 4))
      else
        header ++ msg.take avail ++ sendLoop support version channel msglen rounds false (msg.drop avail) (len - avail)
    else []

/-- `qemud_serial_send`, for a channel that is not negative. Every round writes a byte of the
message. -/
def serialSend (support : Bool) (version : Version) (channel : Nat) (framing : Bool) (msg : List Nat) : List Nat :=
  if msg.length = 0 then []
  else
    let len := if framing = true then msg.length + 4 else msg.length
    sendLoop support version channel msg.length len framing msg len

/-! ### The receiver -/

def multiplexerRecv : (Nat → Client) → List (Option Nat × List Nat) → Option ((Nat → Client) × List (Nat × List Nat))
  | clients, [] => some (clients, [])
  | clients, (none, _) :: packets => multiplexerRecv clients packets
  | clients, (some channel, msg) :: packets =>
    ((clients channel).recv (msg.length + 1) msg).bind fun r =>
      (multiplexerRecv (Function.update clients channel r.1) packets).map fun d =>
        (d.1, r.2.map (Prod.mk channel) ++ d.2)

/-- What the clients of a port get from the bytes that come in. -/
def received (support : Bool) (version : Version) (framing : Nat → Bool) (chunks : List (List Nat)) :
    Option (List (Nat × List Nat)) :=
  (calls (Serial.read support) { Serial.init with version } chunks).bind fun r =>
    (multiplexerRecv (fun channel => Client.alloc (framing channel)) r.2).map Prod.snd

/-! ### Numbers -/

theorem hexdigit_hexchars {d : Nat} (hd : d < 16) : hexdigit (hexchars.getD d 0) = some d := by
  revert d
  decide

theorem hexLoop_int2hex (result len val : Nat) :
    hexLoop result (int2hex len val) = some (result * 16 ^ len + val % 16 ^ len) := by
  induction len generalizing result with
  | zero => simp [int2hex, hexLoop, Nat.mod_one]
  | succ len ih =>
    have hdigit : (val >>> (len * 4)) &&& 15 = val / 16 ^ len % 16 := by
      rw [show (15 : Nat) = 2 ^ 4 - 1 from rfl, Nat.and_two_pow_sub_one_eq_mod, Nat.shiftRight_eq_div_pow,
        mul_comm, Nat.pow_mul]
    rw [int2hex, hdigit, hexLoop, hexdigit_hexchars (Nat.mod_lt _ (by decide))]
    show hexLoop _ _ = _
    rw [ih, Nat.mod_pow_succ]
    congr 1
    ring

theorem hex2int_int2hex {len val : Nat} (hval : val < 16 ^ len) : hex2int (int2hex len val) = some val := by
  rw [hex2int, hexLoop_int2hex, zero_mul, zero_add, mod_eq_of_lt hval]

@[simp] theorem length_int2hex (len val : Nat) : (int2hex len val).length = len := by
  induction len with
  | zero => rfl
  | succ len ih => rw [int2hex, length_cons, ih]

/-! ### Packets -/

/-- The payloads of the packets for some bytes. -/
def piecesLoop : Nat → List Nat → List (List Nat)
  | 0, _ => []
  | rounds + 1, w =>
    if w = [] then [] else w.take maxSerialPayload :: piecesLoop rounds (w.drop maxSerialPayload)

def pieces (w : List Nat) : List (List Nat) := piecesLoop w.length w

theorem flatten_piecesLoop {w : List Nat} (hw : w.length ≤ rounds) : (piecesLoop rounds w).flatten = w := by
  induction rounds generalizing w with
  | zero =>
    obtain rfl := length_eq_zero_iff.mp (le_zero.mp hw)
    rfl
  | succ rounds ih =>
    rw [piecesLoop]
    split
    · rename_i hnil
      rw [hnil, flatten_nil]
    · rw [flatten_cons, ih, take_append_drop]
      rw [length_drop, maxSerialPayload]
      omega

variable (w : List Nat)

theorem flatten_pieces : (pieces w).flatten = w := flatten_piecesLoop le_rfl

theorem mem_piecesLoop {w a : List Nat} (ha : a ∈ piecesLoop rounds w) : a ≠ [] ∧ a.length ≤ maxSerialPayload := by
  induction rounds generalizing w with
  | zero => exact absurd ha not_mem_nil
  | succ rounds ih =>
    rw [piecesLoop] at ha
    split at ha
    · exact absurd ha not_mem_nil
    rename_i hne
    obtain rfl | hrest := mem_cons.mp ha
    · refine ⟨fun hnil => ?_, length_take_le _ _⟩
      obtain hmax | hnil := take_eq_nil_iff.mp hnil
      · exact absurd hmax (by decide)
      · exact hne hnil
    · exact ih hrest

theorem pieces_of_le {w : List Nat} (hne : w ≠ []) (hw : w.length ≤ maxSerialPayload) : pieces w = [w] := by
  obtain ⟨n, hn⟩ : ∃ n, w.length = n + 1 := exists_eq_succ_of_ne_zero (mt length_eq_zero_iff.mp hne)
  have hrest : piecesLoop n [] = [] := by cases n <;> rfl
  rw [pieces, hn, piecesLoop, if_neg hne, take_of_length_le hw, drop_of_length_le hw, hrest]

def packet (support : Bool) (version : Version) (channel : Nat) (payload : List Nat) : List Nat :=
  packetHeader support version channel payload.length ++ payload

variable {msg : List Nat} (framing : Bool)

section Sender
variable {msglen : Nat}

theorem avail_eq (len : Nat) :
    (if maxSerialPayload < len then maxSerialPayload else len) = min maxSerialPayload len := by
  split <;> omega

/-- Without a frame header, the loop writes the packets of what is left of the message. -/
theorem sendLoop_false (rounds : Nat) (msg : List Nat) :
    sendLoop support version channel msglen rounds false msg msg.length =
      (piecesLoop rounds msg).flatMap (packet support version channel) := by
  induction rounds generalizing msg with
  | zero => rfl
  | succ rounds ih =>
    rw [sendLoop, piecesLoop]
    by_cases hne : msg = []
    · rw [if_pos hne, hne]
      rfl
    have hleft : msg.length - min maxSerialPayload msg.length = (msg.drop maxSerialPayload).length := by
      rw [length_drop]
      omega
    rw [if_pos (length_pos_of_ne_nil hne), if_neg hne]
    simp only [avail_eq, Bool.false_eq_true, if_false]
    rw [← drop_eq_drop_min, hleft, ih, flatMap_cons, packet, length_take, ← take_eq_take_min]

/-- The bytes of a message on its channel. -/
def framed (framing : Bool) (msg : List Nat) : List Nat :=
  if framing = true then int2hex 4 msg.length ++ msg else msg

theorem sendLoop_true (rounds : Nat) :
    sendLoop support version channel msg.length (rounds + 1) true msg (msg.length + 4) =
      (piecesLoop (rounds + 1) (int2hex 4 msg.length ++ msg)).flatMap (packet support version channel) := by
  have hlen : (int2hex 4 msg.length ++ msg).length = msg.length + 4 := by
    rw [length_append, length_int2hex, add_comm]
  have hne : int2hex 4 msg.length ++ msg ≠ [] := by
    intro hnil
    rw [hnil] at hlen
    exact absurd hlen (by simp)
  have havail : 4 ≤ min maxSerialPayload (msg.length + 4) := by
    rw [maxSerialPayload]
    omega
  have htake : (int2hex 4 msg.length ++ msg).take maxSerialPayload =
      int2hex 4 msg.length ++ msg.take (min maxSerialPayload (msg.length + 4) - 4) := by
    rw [take_eq_take_min, hlen, take_append, length_int2hex, take_of_length_le (by rw [length_int2hex]; exact havail)]
  have hdrop : (int2hex 4 msg.length ++ msg).drop maxSerialPayload =
      msg.drop (min maxSerialPayload (msg.length + 4) - 4) := by
    rw [drop_eq_drop_min, hlen, drop_append, length_int2hex,
      drop_of_length_le (by rw [length_int2hex]; exact havail), nil_append]
  have hleft : msg.length + 4 - 4 - (min maxSerialPayload (msg.length + 4) - 4) =
      (msg.drop (min maxSerialPayload (msg.length + 4) - 4)).length := by
    rw [length_drop]
    omega
  have hsize : (int2hex 4 msg.length ++ msg.take (min maxSerialPayload (msg.length + 4) - 4)).length =
      min maxSerialPayload (msg.length + 4) := by
    rw [← htake, length_take, hlen]
  rw [sendLoop, piecesLoop, if_pos (by omega), if_neg hne]
  simp only [avail_eq, if_true]
  rw [hleft, sendLoop_false, flatMap_cons, htake, hdrop, packet, hsize]
  simp

theorem serialSend_eq (hmsg : msg ≠ []) : serialSend support version channel framing msg =
      (pieces (framed framing msg)).flatMap (packet support version channel) := by
  have hlen : msg.length ≠ 0 := mt length_eq_zero_iff.mp hmsg
  rw [serialSend, if_neg hlen, framed, pieces]
  cases framing with
  | false => exact sendLoop_false msg.length msg
  | true =>
    have hframe : (int2hex 4 msg.length ++ msg).length = msg.length + 3 + 1 := by
      rw [length_append, length_int2hex, add_comm]
    simp only [if_true]
    rw [hframe]
    exact sendLoop_true (msg.length + 3)

end Sender

/-! ### The port -/

variable {chunks : List (List Nat)}

section Port
variable {reads : Version} {payload : List Nat}

theorem length_packetHeader (avail : Nat) : (packetHeader support version channel avail).length = 6 := by
  rw [packetHeader]
  split <;> simp

section
variable (hformat : LegacyFormat support reads ↔ LegacyFormat support version)
  (hchannel : channel < 256)
include hformat hchannel

/-- A header that is written for a payload that fits is read in the format that it is written in. It
is not the one that a legacy daemon is known by, whose length is too large. -/
theorem readHeader_packetHeader {avail : Nat} (havail : avail ≤ maxSerialPayload) :
    ∃ reads', (LegacyFormat support reads' ↔ LegacyFormat support version) ∧
      readHeader support reads (packetHeader support version channel avail) = ⟨reads', some avail, some channel⟩ := by
  have hlength : hex2int (int2hex 4 avail) = some avail :=
    hex2int_int2hex (lt_of_le_of_lt havail (by decide))
  have hchan : hex2int (int2hex 2 channel) = some channel := hex2int_int2hex hchannel
  by_cases hlegacy : LegacyFormat support version
  · obtain ⟨rfl, rfl⟩ := hformat.mpr hlegacy
    refine ⟨.legacy, hformat, ?_⟩
    rw [packetHeader, if_pos hlegacy]
    simp [readHeader, take_of_length_le, hlength, hchan]
  have hreads := mt hformat.mp hlegacy
  rw [packetHeader, if_neg hlegacy]
  have hsize : ((int2hex 2 channel ++ int2hex 4 avail).drop 2).take 4 = int2hex 4 avail := by
    rw [drop_left' (length_int2hex 2 channel), take_of_length_le (by simp)]
  have htake : (int2hex 2 channel ++ int2hex 4 avail).take 2 = int2hex 2 channel :=
    take_left' (length_int2hex 2 channel)
  have hall : (int2hex 2 channel ++ int2hex 4 avail).take 6 ≠ legacyProbe := by
    intro hprobe
    rw [take_of_length_le (by simp)] at hprobe
    rw [hprobe] at hsize
    rw [← hsize] at hlength
    have hvalue : (0x1200 : Nat) = avail := Option.some.inj (hlength.symm.trans (by decide)).symm
    rw [maxSerialPayload] at havail
    omega
  by_cases hunknown : support = true ∧ reads = .unknown
  · have hnormal : ¬ LegacyFormat support .normal := by
      intro h
      cases h.2
    refine ⟨.normal, iff_of_false hnormal hlegacy, ?_⟩
    simp only [readHeader, if_pos hunknown, if_neg hall, hsize, htake, hlength, hchan]
    exact if_neg hnormal
  · refine ⟨reads, hformat, ?_⟩
    simp only [readHeader, if_neg hunknown, hsize, htake, hlength, hchan]
    exact if_neg hreads

theorem nextPacket_sent (hne : payload ≠ []) (hfits : payload.length ≤ maxSerialPayload) :
    ∃ reads', (LegacyFormat support reads' ↔ LegacyFormat support version) ∧
      ∀ m, nextPacket support (.reading reads) (packet support version channel payload ++ m) =
        some ⟨.reading reads', [(some channel, payload)], m⟩ := by
  obtain ⟨reads', hformat', hread⟩ := readHeader_packetHeader hformat hchannel hfits
  have hsize : (readHeader support reads (packetHeader support version channel payload.length)).size =
      payload.length := by
    rw [hread]
    rfl
  refine ⟨reads', hformat', fun m => ?_⟩
  rw [packet, append_assoc, nextPacket_packet (length_packetHeader _) (hsize.trans_le hfits) hsize hne, hread]

end

variable (packets : List (Nat × List Nat))

section
variable (hpackets : ∀ p ∈ packets, p.1 < 256 ∧ p.2 ≠ [] ∧ p.2.length ≤ maxSerialPayload)
include hpackets

theorem parse_sent (hformat : LegacyFormat support reads ↔ LegacyFormat support version) :
    (parse (nextPacket support) (.reading reads) (packets.flatMap fun p => packet support version p.1 p.2)).items =
      packets.map fun p => (some p.1, p.2) := by
  induction packets generalizing reads with
  | nil => rfl
  | cons p packets ih =>
    obtain ⟨hchannel, hne, hfits⟩ := hpackets p mem_cons_self
    obtain ⟨reads', hformat', hnext⟩ := nextPacket_sent hformat hchannel hne hfits
    rw [flatMap_cons, (nextPacket_incremental support).parse_some (hnext _), map_cons]
    exact congrArg (List.cons _) (ih (forall_mem_cons.mp hpackets).2 hformat')

theorem read_sent (hchunks : chunks.flatten = packets.flatMap fun p => packet support version p.1 p.2) :
    ∃ s, calls (Serial.read support) { Serial.init with version } chunks =
      some (s, packets.map fun p => (some p.1, p.2)) := by
  have hinit : SerialHolds support { Serial.init with version } (.reading version) [] :=
    SerialHolds.header (s := { Serial.init with version }) [] rfl rfl rfl (by decide) rfl
  obtain ⟨s, hcalls⟩ := hinit.read_eq chunks
  exact ⟨s, by rw [hcalls, hchunks, parse_sent packets hpackets Iff.rfl]⟩

end

end Port

/-! ### The clients -/

variable (clients : Nat → Client)

theorem multiplexerRecv_append (packets packets' : List (Option Nat × List Nat)) :
    multiplexerRecv clients (packets ++ packets') = (multiplexerRecv clients packets).bind fun r =>
        (multiplexerRecv r.1 packets').map fun d => (d.1, r.2 ++ d.2) := by
  induction packets generalizing clients with
  | nil => simp [multiplexerRecv]
  | cons p packets ih =>
    obtain ⟨channel, msg⟩ := p
    cases channel with
    | none => exact ih clients
    | some channel =>
      simp only [cons_append, multiplexerRecv, Option.bind_assoc]
      congr 1
      funext r
      simp [ih, Option.bind_map, Function.comp_def]

def Client.recvPacket (c : Client) (msg : List Nat) : Option (Client × List (List Nat)) :=
  c.recv (msg.length + 1) msg

open Client

theorem multiplexerRecv_channel (channel : Nat) (payloads : List (List Nat)) :
    multiplexerRecv clients (payloads.map fun a => (some channel, a)) =
      (calls recvPacket (clients channel) payloads).map fun r =>
        (update clients channel r.1, r.2.map (Prod.mk channel)) := by
  induction payloads generalizing clients with
  | nil => simp [multiplexerRecv, calls]
  | cons a payloads ih =>
    simp only [map_cons, multiplexerRecv, calls, recvPacket, Option.map_bind]
    congr 1
    funext r
    simp [ih, Function.comp_def]

/-- The messages that a client gets for one that is sent. -/
def delivery (framing : Bool) (msg : List Nat) : List (List Nat) :=
  if framing = true ∨ msg.length ≤ maxSerialPayload then [msg] else pieces msg

theorem flatten_delivery (msg : List Nat) : (delivery framing msg).flatten = msg := by
  rw [delivery]
  split
  · exact flatten_singleton
  · exact flatten_pieces msg

def Ready (framing : Bool) (c : Client) : Prop :=
  if framing = true then Holds c false [] else c.framing = false

theorem ready_alloc : Ready framing (alloc framing) := by
  cases framing with
  | false => rfl
  | true => exact holds_alloc

variable {c : Client}

theorem calls_unframed (hc : c.framing = false) (payloads : List (List Nat)) :
    calls recvPacket c payloads = some (c, payloads) := by
  induction payloads with
  | nil => rfl
  | cons a payloads ih => simp [calls, recvPacket, recv, hc, ih]

theorem calls_framed (hc : Holds c false []) {payloads : List (List Nat)} {f : Frame}
    (hpayloads : payloads.flatten = f.bytes) :
    ∃ c', calls recvPacket c payloads = some (c', [f.payload]) ∧ Holds c' false [] := by
  have hparse : parse (nextFrame false) false ([] ++ payloads.flatten) = ⟨false, [f.payload], []⟩ := by
    have hframe := parse_frames false [f] []
    rw [flatMap_singleton, append_nil] at hframe
    rw [nil_append, hpayloads, hframe, parse_none (nextFrame_short (by decide))]
    rfl
  have hcalls := recvTurn_follows.calls_holds (nextFrame_incremental false) recvPacket payloads
    (fun msg _ hc hfine => recv_eq msg hc hfine (lt_succ_self msg.length)) hc
    (Or.inl (by rw [hparse]))
  rw [hparse] at hcalls
  exact hcalls

theorem calls_pieces {framing : Bool} (hc : Ready framing c) (hne : msg ≠ []) (hmsg : msg.length ≤ 65535) :
    ∃ c', calls recvPacket c (pieces (framed framing msg)) = some (c', delivery framing msg) ∧ Ready framing c' := by
  cases framing with
  | false =>
    have hpieces : delivery false msg = pieces msg := by
      rw [delivery]
      split
      · rename_i hfits
        rw [pieces_of_le hne (hfits.resolve_left nofun)]
      · rfl
    rw [hpieces]
    exact ⟨c, calls_unframed hc _, hc⟩
  | true =>
    have hsize : frameSize (int2hex 4 msg.length) = msg.length := by
      rw [frameSize, hex2int_int2hex (lt_succ_of_le hmsg), Option.getD_some]
    exact calls_framed (f := ⟨int2hex 4 msg.length, msg, length_int2hex 4 _, hsize, hne⟩) hc (flatten_pieces _)

/-- The packets of messages on several channels. -/
def packetsOf (framing : Nat → Bool) (msgs : List (Nat × List Nat)) : List (Nat × List Nat) :=
  msgs.flatMap fun m => (pieces (framed (framing m.1) m.2)).map (Prod.mk m.1)

def deliveries (framing : Nat → Bool) (msgs : List (Nat × List Nat)) : List (Nat × List Nat) :=
  msgs.flatMap fun m => (delivery (framing m.1) m.2).map (Prod.mk m.1)

theorem multiplexerRecv_packetsOf (framing : Nat → Bool) (msgs : List (Nat × List Nat))
    (hmsgs : ∀ m ∈ msgs, m.2 ≠ [] ∧ m.2.length ≤ 65535) {clients : Nat → Client}
    (hclients : ∀ channel, Ready (framing channel) (clients channel)) :
    ∃ clients', multiplexerRecv clients ((packetsOf framing msgs).map fun p => (some p.1, p.2)) =
      some (clients', deliveries framing msgs) := by
  induction msgs generalizing clients with
  | nil => exact ⟨clients, rfl⟩
  | cons m msgs ih =>
    obtain ⟨hne, hlen⟩ := hmsgs m mem_cons_self
    obtain ⟨c', hcalls, hready⟩ := calls_pieces (hclients m.1) hne hlen
    have hclients' : ∀ channel, Ready (framing channel) (update clients m.1 c' channel) := by
      intro channel
      by_cases hchannel : channel = m.1
      · rw [hchannel, update_self]
        exact hready
      · rw [update_of_ne hchannel]
        exact hclients channel
    obtain ⟨clients', hrest⟩ := ih (forall_mem_cons.mp hmsgs).2 hclients'
    have hfirst : multiplexerRecv clients
          (((pieces (framed (framing m.1) m.2)).map (Prod.mk m.1)).map fun p => (some p.1, p.2)) =
        some (update clients m.1 c', (delivery (framing m.1) m.2).map (Prod.mk m.1)) := by
      rw [map_map]
      exact (multiplexerRecv_channel clients m.1 _).trans (by rw [hcalls, Option.map_some])
    refine ⟨clients', ?_⟩
    rw [packetsOf, flatMap_cons, map_append, multiplexerRecv_append, hfirst, Option.bind_some]
    exact (congrArg (Option.map _) hrest).trans rfl

/-! ### Messages -/

/-- Channels and messages that the sender takes. -/
def Sendable (msgs : List (Nat × List Nat)) : Prop :=
  ∀ m ∈ msgs, m.1 ≤ 255 ∧ m.2 ≠ [] ∧ m.2.length ≤ 65535

instance (msgs : List (Nat × List Nat)) : Decidable (Sendable msgs) :=
  inferInstanceAs (Decidable (∀ m ∈ msgs, _))

def sendAll (support : Bool) (version : Version) (framing : Nat → Bool) (msgs : List (Nat × List Nat)) : List Nat :=
  msgs.flatMap fun m => serialSend support version m.1 (framing m.1) m.2

section Messages
variable {framing : Nat → Bool} {msgs : List (Nat × List Nat)}

theorem sendAll_eq (hmsgs : Sendable msgs) : sendAll support version framing msgs =
    (packetsOf framing msgs).flatMap fun p => packet support version p.1 p.2 := by
  rw [sendAll, packetsOf, flatMap_assoc]
  apply flatMap_congr
  intro m hm
  rw [serialSend_eq (framing m.1) (hmsgs m hm).2.1, flatMap_map]

theorem received_sendAll (hmsgs : Sendable msgs) (hchunks : chunks.flatten = sendAll support version framing msgs) :
    received support version framing chunks = some (deliveries framing msgs) := by
  have hpackets : ∀ p ∈ packetsOf framing msgs, p.1 < 256 ∧ p.2 ≠ [] ∧ p.2.length ≤ maxSerialPayload := by
    intro p hp
    obtain ⟨m, hm, hp⟩ := mem_flatMap.mp hp
    obtain ⟨a, ha, rfl⟩ := mem_map.mp hp
    exact ⟨lt_succ_of_le (hmsgs m hm).1, mem_piecesLoop ha⟩
  obtain ⟨s, hread⟩ := read_sent (packetsOf framing msgs) hpackets (hchunks.trans (sendAll_eq hmsgs))
  obtain ⟨clients, hrecv⟩ := multiplexerRecv_packetsOf framing msgs (fun m hm => (hmsgs m hm).2)
    (fun channel => ready_alloc (framing channel))
  rw [received, hread, Option.bind_some, hrecv, Option.map_some]

end Messages

/-- Messages on several channels, sent in turn and handed over in any pieces: each arrives once and
whole if its channel is framed or it fits into a packet, and packet by packet otherwise. -/
theorem sent_received (support : Bool) (version : Version) (framing : Nat → Bool) (msgs : List (Nat × List Nat))
    (hmsgs : Sendable msgs) (chunks : List (List Nat))
    (hchunks : chunks.flatten = sendAll support version framing msgs) :
    received support version framing chunks = some (deliveries framing msgs) ∧
      ∀ m ∈ msgs, (delivery (framing m.1) m.2).flatten = m.2 :=
  ⟨received_sendAll hmsgs hchunks, fun m _ => flatten_delivery (framing m.1) m.2⟩

/-- `"010005"` and `"0001a"`, in three pieces. -/
theorem letter_received : received true .unknown (fun _ => true)
    [[0x30], [0x31, 0x30, 0x30, 0x30, 0x35, 0x30], [0x30, 0x30, 0x31, 0x61]] = some [(1, [0x61])] :=
  (sent_received true .unknown (fun _ => true) [(1, [0x61])] (by decide)
    [[0x30], [0x31, 0x30, 0x30, 0x30, 0x35, 0x30], [0x30, 0x30, 0x31, 0x61]] (by decide)).1

/-- One byte more than fits into a packet. -/
def longMessage : List Nat := List.replicate 4001 0x61

theorem long_in_pieces : Sendable [(1, longMessage)] ∧ ∀ chunks : List (List Nat),
    chunks.flatten = sendAll true .unknown (fun _ => false) [(1, longMessage)] →
      received true .unknown (fun _ => false) chunks ≠ some [(1, longMessage)] := by
  have hlen : longMessage.length = 4001 := length_replicate
  have hsend : Sendable [(1, longMessage)] := by
    intro m hm
    obtain rfl := mem_singleton.mp hm
    exact ⟨by decide, ne_nil_of_length_eq_add_one hlen, by rw [hlen]; decide⟩
  refine ⟨hsend, fun chunks hchunks hwhole => ?_⟩
  rw [received_sendAll hsend hchunks, deliveries, flatMap_singleton, delivery,
    if_neg (by rw [hlen]; decide)] at hwhole
  have hmem : (1, longMessage) ∈ (pieces longMessage).map (Prod.mk 1) :=
    Option.some.inj hwhole ▸ mem_singleton_self _
  obtain ⟨a, ha, heq⟩ := mem_map.mp hmem
  obtain rfl : a = longMessage := congrArg Prod.snd heq
  exact absurd (mem_piecesLoop ha).2 (by rw [hlen]; decide)

end GemDroid.Qemud
