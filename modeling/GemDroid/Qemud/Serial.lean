import GemDroid.Lib.Incremental
import GemDroid.Qemud.Sink
import Mathlib.Data.List.TakeWhile

/-! Packets on the serial port of qemud (`qemud_serial_read` of `android/hw-qemud.c`).

Header and payload share one buffer. The bytes of a packet that is too long are to be skipped,
but the count of bytes to skip never goes down, so that everything behind it is skipped too. -/
namespace GemDroid.Qemud
open Lib List Function Option

variable {support : Bool}

def maxSerialPayload : Nat := 4000

inductive Version where
  | unknown
  | legacy
  | normal
  deriving DecidableEq, Repr

variable {version : Version}

/-- The fields of a `QemudSerial` for incoming packets. In `inSize` and `inChannel`, `none` stands
for -1; both sinks fill `data0`. -/
structure Serial where
  needHeader : Bool
  overflow : Nat
  inSize : Option Nat
  inChannel : Option Nat
  version : Version
  header : Sink
  payload : Sink
  data0 : Buffer

open Serial

structure HeaderInfo where
  version : Version
  inSize : Option Nat
  inChannel : Option Nat

/-- The header of a legacy daemon, `"001200"`. -/
def legacyProbe : List Nat := [0x30, 0x30, 0x31, 0x32, 0x30, 0x30]

/-- How `qemud_serial_read` reads a header; `support` is `SUPPORT_LEGACY_QEMUD`. -/
def readHeader (support : Bool) (version : Version) (data0 : List Nat) : HeaderInfo :=
  let version :=
    if support = true ∧ version = .unknown then if data0.take 6 = legacyProbe then .legacy else .normal
    else version
  if support = true ∧ version = .legacy then
    ⟨version, hex2int (data0.take 4), hex2int ((data0.drop 4).take 2)⟩
  else ⟨version, hex2int ((data0.drop 2).take 4), hex2int (data0.take 2)⟩

namespace Serial

def init : Serial := ⟨true, 0, some 0, none, .unknown, ⟨0, 6⟩, ⟨0, 0⟩, fun _ => 0⟩

def readPayload (s : Serial) (msg : List Nat) : Turn Serial Nat (Option Nat × List Nat) :=
  match sinkFill s.payload s.data0 msg with
  | (false, payload, data0, _) => .leave { s with payload, data0 }
  | (true, payload, data0, msg) =>
    let data0 : Buffer := update data0 payload.size 0
    .again { s with payload, data0, needHeader := true } msg [(s.inChannel, data0.read payload.size)]

def headerDone (support : Bool) (s : Serial) (msg : List Nat) : Turn Serial Nat (Option Nat × List Nat) :=
  let info := readHeader support s.version (s.data0.read 6)
  let s := { s with
    header := { s.header with used := 0 }, version := info.version
    inSize := info.inSize, inChannel := info.inChannel }
  match info.inSize, info.inChannel with
  | some (n + 1), some _ =>
    if maxSerialPayload < n + 1 then .again { s with overflow := n + 1 } msg []
    else readPayload { s with needHeader := false, payload := ⟨0, n + 1⟩ } msg
  -- a bad header
  | _, _ => .again s msg []

def readTurn (support : Bool) (s : Serial) (msg : List Nat) : Turn Serial Nat (Option Nat × List Nat) :=
  if 0 < s.overflow then .again s (msg.drop (min s.overflow msg.length)) []
  else if s.needHeader then
    match sinkFill s.header s.data0 msg with
    | (false, header, data0, _) => .leave { s with header, data0 }
    | (true, header, data0, msg) => headerDone support { s with header, data0 } msg
  else readPayload s msg

/-- `qemud_serial_read`, with the channels and messages that it gives to the receiver. Every turn but
the last takes a byte of the message. -/
def read (support : Bool) (s : Serial) (msg : List Nat) : Option (Serial × List (Option Nat × List Nat)) :=
  loop (readTurn support) (msg.length + 1) s msg

end Serial

/-! ### What is taken from the input -/

/-- Whether packets are read, or everything is skipped. -/
inductive Mode where
  | reading (version : Version)
  | skipping
  deriving DecidableEq

/-- The length of the payload behind a header, 0 for a bad header. -/
def HeaderInfo.size (info : HeaderInfo) : Nat :=
  match info.inSize, info.inChannel with
  | some n, some _ => n
  | _, _ => 0

/-- Takes a bad header, the header of a packet that is too long, or a packet. -/
def nextPacket (support : Bool) : Mode → List Nat → Option (Parsed Mode Nat (Option Nat × List Nat))
  | .skipping, _ => none
  | .reading version, w =>
    let info := readHeader support version (w.take 6)
    if w.length < 6 then none
    else if info.size = 0 then some ⟨.reading info.version, [], w.drop 6⟩
    else if maxSerialPayload < info.size then some ⟨.skipping, [], w.drop 6⟩
    else if w.length < 6 + info.size then none
    else some ⟨.reading info.version, [(info.inChannel, (w.drop 6).take info.size)], w.drop (6 + info.size)⟩

section Next
variable {w h m a : List Nat} {p : Parsed Mode Nat (Option Nat × List Nat)}

theorem nextPacket_short (hw : w.length < 6) : nextPacket support (.reading version) w = none := by
  simp [nextPacket, hw]

theorem nextPacket_bad (hh : h.length = 6) (hbad : (readHeader support version h).size = 0) :
    nextPacket support (.reading version) (h ++ m) = some ⟨.reading (readHeader support version h).version, [], m⟩ := by
  have htake : (h ++ m).take 6 = h := take_left' hh
  have hdrop : (h ++ m).drop 6 = m := drop_left' hh
  simp [nextPacket, htake, hdrop, hbad, hh]

theorem nextPacket_long (hh : h.length = 6) (hlong : maxSerialPayload < (readHeader support version h).size) :
    nextPacket support (.reading version) (h ++ m) = some ⟨.skipping, [], m⟩ := by
  have htake : (h ++ m).take 6 = h := take_left' hh
  have hdrop : (h ++ m).drop 6 = m := drop_left' hh
  have hpos : (readHeader support version h).size ≠ 0 := by omega
  simp [nextPacket, htake, hdrop, hpos, hlong, hh]

section
variable (hh : h.length = 6) (hmax : (readHeader support version h).size ≤ maxSerialPayload)
include hh hmax

theorem nextPacket_part (hpart : m.length < (readHeader support version h).size) :
    nextPacket support (.reading version) (h ++ m) = none := by
  have htake : (h ++ m).take 6 = h := take_left' hh
  have hpos : (readHeader support version h).size ≠ 0 := by omega
  simp [nextPacket, htake, hpos, hh, hpart, not_lt.2 hmax]

theorem nextPacket_packet (ha : (readHeader support version h).size = a.length) (hane : a ≠ []) :
    nextPacket support (.reading version) (h ++ (a ++ m)) =
      some ⟨.reading (readHeader support version h).version, [((readHeader support version h).inChannel, a)], m⟩ := by
  have htake : (h ++ (a ++ m)).take 6 = h := take_left' hh
  have hdrop : (h ++ (a ++ m)).drop 6 = a ++ m := drop_left' hh
  have hpos : a.length ≠ 0 := length_eq_zero_iff.not.2 hane
  have hall : (h ++ (a ++ m)).drop (6 + a.length) = m := by
    rw [← append_assoc]
    exact drop_left' (by rw [length_append, hh])
  have hlong : ¬ ((h ++ (a ++ m)).length < 6) := by simp only [length_append]; omega
  have hfull : ¬ ((h ++ (a ++ m)).length < 6 + a.length) := by simp only [length_append]; omega
  rw [ha] at hmax
  simp only [nextPacket, htake, hdrop, ha, hpos, hall, hlong, hfull, not_lt.2 hmax, if_false, take_left]

end

theorem nextPacket_cases (hn : nextPacket support (.reading version) w = some p) : ∃ h m, w = h ++ m ∧ h.length = 6 ∧
      (((readHeader support version h).size = 0 ∧ p = ⟨.reading (readHeader support version h).version, [], m⟩) ∨
        (maxSerialPayload < (readHeader support version h).size ∧ p = ⟨.skipping, [], m⟩) ∨
        (∃ a m', m = a ++ m' ∧ a ≠ [] ∧ (readHeader support version h).size = a.length ∧
          (readHeader support version h).size ≤ maxSerialPayload ∧
          p = ⟨.reading (readHeader support version h).version,
            [((readHeader support version h).inChannel, a)], m'⟩)) := by
  refine ⟨w.take 6, w.drop 6, (take_append_drop 6 w).symm, ?_⟩
  simp only [nextPacket] at hn
  split at hn
  · cases hn
  next hlen =>
    refine ⟨by rw [length_take]; omega, ?_⟩
    split at hn
    next hbad => exact Or.inl ⟨hbad, (some.inj hn).symm⟩
    next hpos =>
      split at hn
      next hlong => exact Or.inr (Or.inl ⟨hlong, (some.inj hn).symm⟩)
      next hmax =>
        split at hn
        · cases hn
        next hfull =>
          have hsize : ((w.drop 6).take (readHeader support version (w.take 6)).size).length =
              (readHeader support version (w.take 6)).size := by
            rw [length_take, length_drop]
            omega
          refine Or.inr (Or.inr ⟨_, w.drop (6 + (readHeader support version (w.take 6)).size), ?_, ?_, hsize.symm,
            not_lt.1 hmax, (some.inj hn).symm⟩)
          · rw [← drop_drop, take_append_drop]
          · exact ne_nil_of_length_pos (by omega)

theorem nextPacket_incremental (support : Bool) : Incremental (nextPacket support) where
  shorter := by
    intro s w p hn
    cases s with
    | skipping => cases hn
    | reading version =>
      obtain ⟨h, m, rfl, hh, ⟨-, rfl⟩ | ⟨-, rfl⟩ | ⟨a, m', rfl, -, -, -, rfl⟩⟩ := nextPacket_cases hn
      all_goals
        simp only [length_append, hh]
        omega
  extend := by
    intro s w p m hn
    cases s with
    | skipping => cases hn
    | reading version =>
      obtain ⟨h, m', rfl, hh, ⟨hbad, rfl⟩ | ⟨hlong, rfl⟩ | ⟨a, m', rfl, hane, ha, hmax, rfl⟩⟩ := nextPacket_cases hn
      · rw [append_assoc, nextPacket_bad hh hbad]
      · rw [append_assoc, nextPacket_long hh hlong]
      · rw [append_assoc, append_assoc, nextPacket_packet hh hmax ha hane]

end Next

/-! ### The sinks and the pending input -/

/-- What the sinks hold is the input that is not parsed yet. -/
inductive SerialHolds (support : Bool) (s : Serial) : Mode → List Nat → Prop where
  | header (w : List Nat) (hover : s.overflow = 0) (hneed : s.needHeader = true)
      (hsink : s.header = ⟨w.length, 6⟩) (hlen : w.length < 6) (hread : s.data0.read w.length = w) :
      SerialHolds support s (.reading s.version) w
  | payload (version : Version) (h w : List Nat) (hover : s.overflow = 0) (hneed : s.needHeader = false)
      (hheader : s.header = ⟨0, 6⟩) (hh : h.length = 6)
      (hversion : s.version = (readHeader support version h).version)
      (hchannel : s.inChannel = (readHeader support version h).inChannel)
      (hmax : (readHeader support version h).size ≤ maxSerialPayload)
      (hlen : w.length < (readHeader support version h).size)
      (hsink : s.payload = ⟨w.length, (readHeader support version h).size⟩) (hread : s.data0.read w.length = w) :
      SerialHolds support s (.reading version) (h ++ w)
  | skipping (w : List Nat) (hover : 0 < s.overflow) : SerialHolds support s .skipping w

open SerialHolds

theorem serialHolds_init (support : Bool) : SerialHolds support init (.reading .unknown) [] :=
  header (s := init) [] rfl rfl rfl (by decide) rfl

namespace Serial
variable {s : Serial} {h w : List Nat}

theorem readPayload_cases {mode : Mode} (msg : List Nat) (hs : SerialHolds support s mode w) (hover : s.overflow = 0)
    (hneed : s.needHeader = false) : (nextPacket support mode (w ++ msg) = none ∧
      ∃ s', readPayload s msg = .leave s' ∧ SerialHolds support s' mode (w ++ msg)) ∨
    (∃ p, nextPacket support mode (w ++ msg) = some p ∧ p.rest.length < msg.length ∧
      ∃ s', readPayload s msg = .again s' p.rest p.items ∧ SerialHolds support s' p.state []) := by
  cases hs with
  | header _ _ hheader => exact absurd (hneed.symm.trans hheader) nofun
  | skipping _ hpos => omega
  | payload version h w _ _ hheader hh hversion hchannel hmax hlen hsink hread =>
    rw [append_assoc]
    obtain ⟨hpart, data0, hfill, hdata0⟩ | ⟨a, r, rfl, hane, hsize, data0, hfill, hdata0⟩ :=
      sinkFill_cases msg hlen hread
    · refine Or.inl ⟨nextPacket_part hh hmax hpart, _, by rw [readPayload, hsink, hfill], ?_⟩
      exact SerialHolds.payload version h (w ++ msg) hover hneed hheader hh hversion hchannel hmax hpart rfl hdata0
    have hnext := nextPacket_packet (m := r) hh hmax hsize.symm (by simp [hane])
    rw [append_assoc] at hnext
    refine Or.inr ⟨_, hnext, length_lt_append hane r, { s with
      payload := ⟨(readHeader support version h).size, (readHeader support version h).size⟩, needHeader := true
      data0 := update data0 (readHeader support version h).size 0 }, ?_, ?_⟩
    · simp [readPayload, hsink, hfill, hchannel, Buffer.read_update le_rfl, hdata0]
    · rw [← hversion]
      exact SerialHolds.header [] hover rfl hheader (by decide) rfl

theorem headerDone_cases (support : Bool) (msg : List Nat) (hover : s.overflow = 0) (hneed : s.needHeader = true)
    (hsink : s.header = ⟨6, 6⟩) (hh : h.length = 6) (hread : s.data0.read 6 = h) :
    (nextPacket support (.reading s.version) (h ++ msg) = none ∧
      ∃ s', headerDone support s msg = .leave s' ∧ SerialHolds support s' (.reading s.version) (h ++ msg)) ∨
    (∃ p, nextPacket support (.reading s.version) (h ++ msg) = some p ∧ p.rest.length ≤ msg.length ∧
      ∃ s', headerDone support s msg = .again s' p.rest p.items ∧ SerialHolds support s' p.state []) := by
  let s₁ := { s with
    header := ⟨0, 6⟩, version := (readHeader support s.version h).version
    inSize := (readHeader support s.version h).inSize, inChannel := (readHeader support s.version h).inChannel }
  by_cases hbad : (readHeader support s.version h).size = 0
  · refine Or.inr ⟨_, nextPacket_bad hh hbad, le_rfl, s₁, ?_,
      SerialHolds.header (s := s₁) [] hover hneed rfl (by decide) rfl⟩
    simp only [headerDone, hread, hsink]
    split
    next n c hn hc => simp [HeaderInfo.size, hn, hc] at hbad
    · rfl
  obtain ⟨n, c, hn, hc⟩ : ∃ n c, (readHeader support s.version h).inSize = some (n + 1) ∧
      (readHeader support s.version h).inChannel = some c := by
    simp only [HeaderInfo.size] at hbad
    split at hbad
    next n c hn hc => exact ⟨n - 1, c, by rw [hn]; congr 1; omega, hc⟩
    · exact absurd rfl hbad
  have hsize : (readHeader support s.version h).size = n + 1 := by simp [HeaderInfo.size, hn, hc]
  by_cases hlong : maxSerialPayload < n + 1
  · refine Or.inr ⟨_, nextPacket_long hh (by rw [hsize]; exact hlong), le_rfl,
      { s₁ with overflow := n + 1 }, ?_, skipping [] (Nat.succ_pos n)⟩
    simp [headerDone, hread, hsink, hn, hc, hlong, s₁]
  let s₂ := { s₁ with needHeader := false, payload := ⟨0, n + 1⟩ }
  have hdone : headerDone support s msg = readPayload s₂ msg := by
    simp [headerDone, hread, hsink, hn, hc, hlong, s₁, s₂]
  rw [hdone]
  have hpayload := readPayload_cases msg (.payload (s := s₂) s.version h [] hover rfl rfl hh rfl rfl
    (by rw [hsize]; omega) (by rw [hsize]; exact Nat.succ_pos n) (by rw [hsize]; rfl) rfl) hover rfl
  rw [append_nil] at hpayload
  obtain hleave | ⟨p, hp, hlt, hagain⟩ := hpayload
  · exact Or.inl hleave
  · exact Or.inr ⟨p, hp, le_of_lt hlt, hagain⟩

end Serial

theorem readTurn_follows (support : Bool) :
    Follows (nextPacket support) (readTurn support) (SerialHolds support) (fun _ => True) where
  pending := by
    intro s mode w hs
    cases hs with
    | header _ _ _ _ hlen _ => exact nextPacket_short hlen
    | payload version h w _ _ _ hh _ _ hmax hlen _ _ => exact nextPacket_part hh hmax hlen
    | skipping => rfl
  dead := fun hdead => absurd trivial hdead
  turns := by
    intro s mode w msg hs _ hmsg
    cases hs with
    | skipping w hover =>
      refine Or.inr (Or.inr ⟨fun _ => rfl, ?_, _, by rw [readTurn, if_pos hover], ?_⟩)
      · intro s w w' hs
        cases hs with
        | skipping _ hover => exact skipping w' hover
      · have := length_pos_iff.2 hmsg
        rw [length_drop]
        omega
    | payload version h w hover hneed hheader hh hversion hchannel hmax hlen hsink hread =>
      have hturn : s.readTurn support msg = s.readPayload msg := by simp [readTurn, hneed, hover]
      rw [hturn]
      obtain hleave | hagain := readPayload_cases msg
        (.payload version h w hover hneed hheader hh hversion hchannel hmax hlen hsink hread) hover hneed
      · exact Or.inl hleave
      · exact Or.inr (Or.inl hagain)
    | header w hover hneed hsink hlen hread =>
      have hzero : ¬ 0 < s.overflow := by omega
      obtain ⟨hpart, data0, hfill, hdata0⟩ | ⟨a, r, rfl, hane, hh, data0, hfill, hdata0⟩ :=
        sinkFill_cases msg hlen hread
      · refine Or.inl ⟨nextPacket_short hpart, { s with header := ⟨(w ++ msg).length, 6⟩, data0 }, ?_,
          header (s := { s with header := ⟨(w ++ msg).length, 6⟩, data0 }) _ hover hneed rfl hpart hdata0⟩
        simp [readTurn, hzero, hneed, hsink, hfill]
      have hshort := length_lt_append hane r
      have hturn : s.readTurn support (a ++ r) = headerDone support { s with header := ⟨6, 6⟩, data0 } r := by
        simp [readTurn, hzero, hneed, hsink, hfill]
      rw [← append_assoc, hturn]
      obtain hleave | ⟨p, hp, hle, hagain⟩ := headerDone_cases
        (s := { s with header := ⟨6, 6⟩, data0 }) support r hover hneed rfl hh hdata0
      · exact Or.inl hleave
      · exact Or.inr (Or.inl ⟨p, hp, lt_of_le_of_lt hle hshort, hagain⟩)

variable {p : Packet} {ps : List Packet}

/-- Any pieces of any input: the receiver gets what is taken from the whole input. -/
theorem SerialHolds.read_eq {s : Serial} {mode : Mode} (hs : SerialHolds support s mode []) (msgs : List (List Nat)) :
    ∃ s', calls (read support) s msgs = some (s', (parse (nextPacket support) mode msgs.flatten).items) := by
  obtain ⟨s', hcalls, -⟩ := (readTurn_follows support).calls_holds (nextPacket_incremental support) (read support)
    msgs (fun msg _ hs hfine =>
      (readTurn_follows support).loop_eq (nextPacket_incremental support) hs hfine (Nat.lt_succ_self msg.length))
    hs (Or.inl trivial)
  exact ⟨s', hcalls⟩

/-! ### Packets -/

structure Packet where
  channel : List Nat
  length : List Nat
  payload : List Nat
  channel_length : channel.length = 2
  channel_hex : (hex2int channel).isSome = true
  length_length : length.length = 4
  length_value : hex2int length = some payload.length

namespace Packet

def header (p : Packet) : List Nat := p.channel ++ p.length

def bytes (p : Packet) : List Nat := p.header ++ p.payload

def pair (p : Packet) : Option Nat × List Nat := (hex2int p.channel, p.payload)

/-- Whether the receiver is to get the packet. -/
def fits (p : Packet) : Bool := p.payload.length ≤ maxSerialPayload

variable {p : Packet}

theorem header_length (p : Packet) : p.header.length = 6 := by
  rw [header, length_append, p.channel_length, p.length_length]

theorem readHeader_normal (hversion : version ≠ .legacy)
    (hprobe : support = true → version = .unknown → p.header ≠ legacyProbe) :
    ∃ version', version' ≠ .legacy ∧ (support = true → version' ≠ .unknown) ∧
      readHeader support version p.header = ⟨version', some p.payload.length, hex2int p.channel⟩ := by
  have hsize : (p.header.drop 2).take 4 = p.length := by
    rw [header, drop_left' p.channel_length, take_of_length_le (le_of_eq p.length_length)]
  have hchannel : p.header.take 2 = p.channel := take_left' p.channel_length
  have hall : p.header.take 6 = p.header := take_of_length_le (le_of_eq p.header_length)
  cases support with
  | false =>
    refine ⟨version, hversion, nofun, ?_⟩
    simp [readHeader, hsize, hchannel, p.length_value]
  | true =>
    refine ⟨.normal, nofun, nofun, ?_⟩
    cases version with
    | unknown => simp [readHeader, hall, hprobe rfl rfl, hsize, hchannel, p.length_value]
    | legacy => exact absurd rfl hversion
    | normal => simp [readHeader, hsize, hchannel, p.length_value]

theorem size_readHeader {version' : Version}
    (h : readHeader support version p.header = ⟨version', some p.payload.length, hex2int p.channel⟩) :
    (readHeader support version p.header).size = p.payload.length := by
  obtain ⟨c, hc⟩ := isSome_iff_exists.1 p.channel_hex
  rw [h, HeaderInfo.size, hc]

end Packet

/-- The packets that the receiver gets: those before the first that is too long, without the empty
ones. -/
def reached (ps : List Packet) : List Packet := (ps.takeWhile Packet.fits).filter fun p => !p.payload.isEmpty

theorem reached_cons_empty (h : p.payload = []) : reached (p :: ps) = reached ps := by
  simp [reached, Packet.fits, h]

theorem reached_cons_fits (h : p.payload ≠ []) (hfits : p.fits = true) : reached (p :: ps) = p :: reached ps := by
  simp [reached, hfits, h]

theorem reached_cons_long (hlong : p.fits = false) : reached (p :: ps) = [] := by
  simp [reached, hlong]

theorem parse_packets (hversion : version ≠ .legacy)
    (hprobe : support = true → version = .unknown → ∀ p ∈ ps.head?, p.header ≠ legacyProbe) :
    (parse (nextPacket support) (.reading version) (ps.flatMap Packet.bytes)).items = (reached ps).map Packet.pair := by
  induction ps generalizing version with
  | nil => rfl
  | cons p ps ih =>
    obtain ⟨version', hlegacy, hunknown, hinfo⟩ :=
      Packet.readHeader_normal hversion (fun hs hv => hprobe hs hv p rfl)
    have hsize := Packet.size_readHeader hinfo
    have hrest := ih hlegacy (fun hs hv => absurd hv (hunknown hs))
    rw [flatMap_cons, Packet.bytes, append_assoc]
    cases hfits : p.fits with
    | true =>
      by_cases hempty : p.payload = []
      · rw [hempty, length_nil] at hsize
        rw [(nextPacket_incremental support).parse_some (nextPacket_bad p.header_length hsize),
          reached_cons_empty hempty, hempty, hinfo]
        exact hrest
      have hmax : (readHeader support version p.header).size ≤ maxSerialPayload := by
        rw [hsize]
        exact of_decide_eq_true hfits
      rw [(nextPacket_incremental support).parse_some (nextPacket_packet p.header_length hmax hsize hempty),
        reached_cons_fits hempty hfits, hinfo]
      exact congrArg ([p.pair] ++ ·) hrest
    | false =>
      have hlong : maxSerialPayload < (readHeader support version p.header).size := by
        rw [hsize]
        exact not_le.1 (of_decide_eq_false hfits)
      rw [(nextPacket_incremental support).parse_some (nextPacket_long p.header_length hlong),
        reached_cons_long hfits, parse_none rfl]
      rfl

theorem reached_sublist (ps : List Packet) : (reached ps).Sublist (ps.filter Packet.fits) := by
  induction ps with
  | nil => exact List.Sublist.refl _
  | cons p ps ih =>
    cases hfits : p.fits with
    | true =>
      rw [filter_cons_of_pos hfits]
      by_cases hempty : p.payload = []
      · rw [reached_cons_empty hempty]
        exact ih.cons p
      · rw [reached_cons_fits hempty hfits]
        exact ih.cons_cons p
    | false =>
      rw [reached_cons_long hfits]
      exact nil_sublist _

/-- Nothing is lost exactly if no packet is empty and none that fits comes behind one that does not. -/
theorem reached_length_iff (ps : List Packet) : (reached ps).length = (ps.filter Packet.fits).length ↔
      (∀ p ∈ ps, p.payload ≠ []) ∧ ps.Pairwise (fun p q => q.fits = true → p.fits = true) := by
  induction ps with
  | nil => simp [reached]
  | cons p ps ih =>
    have hle := (reached_sublist ps).length_le
    rw [pairwise_cons, forall_mem_cons]
    cases hfits : p.fits with
    | true =>
      rw [filter_cons_of_pos hfits, length_cons]
      by_cases hempty : p.payload = []
      · rw [reached_cons_empty hempty]
        refine ⟨fun h => by omega, fun h => absurd hempty h.1.1⟩
      · rw [reached_cons_fits hempty hfits, length_cons, Nat.add_right_cancel_iff, ih]
        simp [hempty]
    | false =>
      have hne (q : Packet) (hq : q.fits = false) : q.payload ≠ [] := by
        intro hnil
        simp [Packet.fits, hnil] at hq
      rw [filter_cons_of_neg (by simp [hfits]), reached_cons_long hfits, length_nil, eq_comm,
        length_eq_zero_iff, filter_eq_nil_iff]
      constructor
      · intro hnone
        have hlong : ∀ q ∈ ps, q.fits = false := fun q hq => by simpa using hnone q hq
        refine ⟨⟨hne p hfits, fun q hq => hne q (hlong q hq)⟩, fun q hq h => absurd h (hnone q hq), ?_⟩
        exact pairwise_of_forall_mem_list fun a _ b hb h => absurd h (hnone b hb)
      · intro h q hq hfit
        exact Bool.noConfusion (h.2.1 q hq hfit)

/-! ### Streams -/

def deliverable (ps : List Packet) : List (Option Nat × List Nat) := (ps.filter Packet.fits).map Packet.pair

/-- However the packets are cut into pieces, at the end of each packet the receiver has got exactly
the packets up to there that are not too long. -/
def DeliversPackets (support : Bool) (ps : List Packet) : Prop :=
  ∀ k, ∀ msgs : List (List Nat), msgs.flatten = (ps.take k).flatMap Packet.bytes →
    ∃ s, calls (Serial.read support) Serial.init msgs = some (s, deliverable (ps.take k))

/-- No packet is empty, none that fits comes behind one that does not, and the first is not taken
for the header of a legacy daemon. -/
structure Regular (support : Bool) (ps : List Packet) : Prop where
  nonempty : ∀ p ∈ ps, p.payload ≠ []
  long_last : ps.Pairwise (fun p q => q.fits = true → p.fits = true)
  not_legacy : support = true → ∀ p ∈ ps.head?, p.header ≠ legacyProbe

theorem mem_head_of_take {k : Nat} (hp : p ∈ (ps.take k).head?) : p ∈ ps.head? := by
  cases k with
  | zero => simp at hp
  | succ k => simpa [head?_take] using hp

theorem Regular.take (h : Regular support ps) (k : Nat) : Regular support (ps.take k) where
  nonempty := fun p hp => h.nonempty p (mem_of_mem_take hp)
  long_last := h.long_last.sublist (take_sublist k ps)
  not_legacy := fun hs p hp => h.not_legacy hs p (mem_head_of_take hp)

theorem deliversPackets_iff_items (support : Bool) (ps : List Packet) : DeliversPackets support ps ↔
      ∀ k, (parse (nextPacket support) (.reading .unknown) ((ps.take k).flatMap Packet.bytes)).items =
        deliverable (ps.take k) := by
  constructor
  · intro hall k
    obtain ⟨s, hone⟩ := hall k [(ps.take k).flatMap Packet.bytes] (append_nil _)
    obtain ⟨s', htwo⟩ := (serialHolds_init support).read_eq [(ps.take k).flatMap Packet.bytes]
    rw [hone, flatten_singleton] at htwo
    exact (congrArg Prod.snd (some.inj htwo)).symm
  · intro hitems k msgs hmsgs
    obtain ⟨s, hs⟩ := (serialHolds_init support).read_eq msgs
    exact ⟨s, by rw [hs, hmsgs, hitems k]⟩

theorem not_deliversPackets_of_legacy (hp : p ∈ ps.head?)
    (hlegacy : p.header = legacyProbe) : ¬ DeliversPackets true ps := by
  intro hall
  have hitems := (deliversPackets_iff_items true ps).1 hall 1
  obtain ⟨ps, rfl⟩ : ∃ ps', ps = p :: ps' := head?_eq_some_iff.1 hp
  have hlength : p.length = [0x31, 0x32, 0x30, 0x30] := by
    have := congrArg (drop 2) hlegacy
    rwa [Packet.header, drop_left' p.channel_length] at this
  have hvalue : p.payload.length = 0x1200 := by
    have := p.length_value
    rw [hlength] at this
    exact (some.inj this).symm
  -- the message that is given to the receiver, and what is left of the payload
  have hsplit := (take_append_drop 18 p.payload).symm
  have hmsg : (p.payload.take 18).length = 18 := by
    rw [length_take]
    omega
  have hnext : nextPacket true (.reading .unknown) p.bytes =
      some ⟨.reading .legacy, [(some 0, p.payload.take 18)], p.payload.drop 18⟩ := by
    conv_lhs => rw [Packet.bytes, hsplit, hlegacy]
    have hsize : (readHeader true .unknown legacyProbe).size = (p.payload.take 18).length := hmsg.symm
    exact nextPacket_packet (show legacyProbe.length = 6 from rfl) (by decide) hsize
      (ne_nil_of_length_pos (by omega))
  have hfits : p.fits = false := by
    simp [Packet.fits, hvalue, maxSerialPayload]
  simp only [take_succ_cons, take_zero, flatMap_cons, flatMap_nil, append_nil,
    (nextPacket_incremental true).parse_some hnext, Parsed.before] at hitems
  simp [deliverable, hfits] at hitems

/-- Without a legacy header the packets before the first that is too long are delivered, but for
the empty ones. -/
theorem items_take (hprobe : support = true → ∀ p ∈ ps.head?, p.header ≠ legacyProbe) (k : Nat) :
    (parse (nextPacket support) (.reading .unknown) ((ps.take k).flatMap Packet.bytes)).items =
      (reached (ps.take k)).map Packet.pair :=
  parse_packets nofun fun hs _ p hp => hprobe hs p (mem_head_of_take hp)

/-- The receiver gets exactly the packets that are not too long, however they are cut, exactly if
none is empty, none that fits comes behind one that does not, and the first is not taken for the
header of a legacy daemon. -/
theorem deliversPackets_iff (support : Bool) (ps : List Packet) : DeliversPackets support ps ↔ Regular support ps := by
  constructor
  · intro hall
    have hprobe : support = true → ∀ p ∈ ps.head?, p.header ≠ legacyProbe := by
      intro hs p hp hlegacy
      subst hs
      exact not_deliversPackets_of_legacy hp hlegacy hall
    have hitems := (deliversPackets_iff_items support ps).1 hall ps.length
    rw [items_take hprobe, take_length] at hitems
    have hlen : (reached ps).length = (ps.filter Packet.fits).length := by
      simpa [deliverable] using congrArg length hitems
    obtain ⟨hne, hlast⟩ := (reached_length_iff ps).1 hlen
    exact ⟨hne, hlast, hprobe⟩
  · intro hreg
    refine (deliversPackets_iff_items support ps).2 fun k => ?_
    have htake := hreg.take k
    have hlen := (reached_length_iff (ps.take k)).2 ⟨htake.nonempty, htake.long_last⟩
    rw [items_take hreg.not_legacy, deliverable, (reached_sublist _).eq_of_length hlen]

def longPacket : Packet where
  channel := [0x30, 0x30]
  length := [0x30, 0x66, 0x61, 0x31]
  payload := replicate 4001 0
  channel_length := rfl
  channel_hex := rfl
  length_length := rfl
  length_value := by rw [length_replicate]; rfl

def bytePacket : Packet where
  channel := [0x30, 0x31]
  length := [0x30, 0x30, 0x30, 0x31]
  payload := [0x61]
  channel_length := rfl
  channel_hex := rfl
  length_length := rfl
  length_value := rfl

/-- Behind a packet that is too long, a packet of one byte is lost. -/
theorem packet_lost_behind_long : deliverable [longPacket, bytePacket] = [(some 1, [0x61])] ∧
      (∃ s, calls (read true) init
        [longPacket.header, longPacket.payload, bytePacket.header, bytePacket.payload] = some (s, [])) ∧
      ¬ DeliversPackets true [longPacket, bytePacket] := by
  have hlong : longPacket.fits = false := by
    have hlen : longPacket.payload.length = 4001 := length_replicate
    rw [Packet.fits, hlen]
    rfl
  have hbyte : bytePacket.fits = true := rfl
  have hdeliver : deliverable [longPacket, bytePacket] = [(some 1, [0x61])] := by
    simp only [deliverable, filter_cons, hlong, hbyte, Bool.false_eq_true, if_false, if_true, filter_nil]
    rfl
  have hitems : (parse (nextPacket true) (.reading .unknown) ([longPacket, bytePacket].flatMap Packet.bytes)).items =
      [] := by
    rw [parse_packets (show Version.unknown ≠ .legacy by decide), reached_cons_long hlong, map_nil]
    intro _ _ p hp
    obtain rfl : longPacket = p := some.inj hp
    decide
  refine ⟨hdeliver, ?_, ?_⟩
  · obtain ⟨s, hs⟩ := (serialHolds_init true).read_eq
      [longPacket.header, longPacket.payload, bytePacket.header, bytePacket.payload]
    refine ⟨s, hs.trans ?_⟩
    rw [← hitems]
    simp [flatten_cons, flatten_nil, flatMap_cons, flatMap_nil, Packet.bytes, append_assoc, append_nil]
  · intro hall
    have htwo := (deliversPackets_iff_items true _).1 hall 2
    rw [take_of_length_le (Nat.le_refl 2), hitems, hdeliver] at htwo
    cases htwo

end GemDroid.Qemud
