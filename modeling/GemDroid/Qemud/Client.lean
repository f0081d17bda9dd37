import GemDroid.Lib.Incremental
import GemDroid.Qemud.Sink

/-! Framed messages to a qemud client (`qemud_client_recv` of `android/hw-qemud.c`).

A header of four hexadecimal digits gives the length of a frame. Header and payload are read
into sinks, so that a message may end anywhere. A header that is empty or malformed is left in
its sink, and the loop finds it there again on every turn. -/
namespace GemDroid.Qemud
open Lib List

variable (msg : List Nat)

/-- The fields of a `QemudClient` for framing. `data` is the buffer of `payload`. -/
structure Client where
  framing : Bool
  needHeader : Bool
  header : Sink
  header0 : Buffer
  payload : Sink
  data : Buffer

open Client

namespace Client

def alloc (framing : Bool) : Client := ⟨framing, true, ⟨0, 4⟩, fun _ => 0, ⟨0, 0⟩, fun _ => 0⟩

def readPayload (c : Client) (msg : List Nat) : Turn Client Nat (List Nat) :=
  match sinkFill c.payload c.data msg with
  | (false, payload, data, _) => .leave { c with payload, data }
  | (true, payload, data, msg) =>
    let data : Buffer := Function.update data payload.size 0
    .again { c with payload, data, needHeader := true } msg [data.read payload.size]

def recvTurn (c : Client) (msg : List Nat) : Turn Client Nat (List Nat) :=
  if c.needHeader then
    match sinkFill c.header c.header0 msg with
    | (false, header, header0, _) => .leave { c with header, header0 }
    | (true, header, header0, msg) =>
      match hex2int (header0.read 4) with
      -- a corrupted header, and an empty frame
      | none => .again { c with header, header0 } msg []
      | some 0 => .again { c with header, header0 } msg []
      | some (n + 1) =>
        readPayload { c with
          header := { header with used := 0 }, header0, needHeader := false
          payload := ⟨0, n + 1⟩, data := fun _ => 0 } msg
  else readPayload c msg

def recv (fuel : Nat) (c : Client) (msg : List Nat) : Option (Client × List (List Nat)) :=
  if !c.framing then some (c, [msg])
  else if 4 < msg.length ∧ c.needHeader ∧ sinkNeeded c.header = 0 ∧
      hex2int (msg.take 4) = some (msg.length - 4) then some (c, [msg.drop 4])
  else loop recvTurn fuel c msg

end Client

/-! ### Frames -/

def frameSize (header : List Nat) : Nat := (hex2int header).getD 0

/-- Takes a frame. A header that is empty or malformed is skipped if `skip`, otherwise nothing is
taken any more. -/
def nextFrame (skip : Bool) (stopped : Bool) (w : List Nat) : Option (Parsed Bool Nat (List Nat)) :=
  if stopped = true ∨ w.length < 4 then none
  else if frameSize (w.take 4) = 0 then some ⟨!skip, [], w.drop 4⟩
  else if w.length < 4 + frameSize (w.take 4) then none
  else some ⟨false, [(w.drop 4).take (frameSize (w.take 4))], w.drop (4 + frameSize (w.take 4))⟩

/-- The frames of a stream, with empty and malformed headers skipped. -/
def framesOf (stream : List Nat) : List (List Nat) := (parse (nextFrame true) false stream).items

structure Frame where
  header : List Nat
  payload : List Nat
  length : header.length = 4
  size : frameSize header = payload.length
  nonempty : payload ≠ []

def Frame.bytes (f : Frame) : List Nat := f.header ++ f.payload

section Next
variable {skip : Bool} {w h m : List Nat} {p : Parsed Bool Nat (List Nat)}

theorem nextFrame_stopped (w : List Nat) : nextFrame skip true w = none := by simp [nextFrame]

theorem nextFrame_short (hw : w.length < 4) : nextFrame skip false w = none := by simp [nextFrame, hw]

theorem nextFrame_bad (hh : h.length = 4) (hbad : frameSize h = 0) :
    nextFrame skip false (h ++ m) = some ⟨!skip, [], m⟩ := by
  have htake : (h ++ m).take 4 = h := take_left' hh
  have hdrop : (h ++ m).drop 4 = m := drop_left' hh
  simp [nextFrame, htake, hdrop, hbad, hh]

theorem nextFrame_part (hh : h.length = 4) (hsize : m.length < frameSize h) : nextFrame skip false (h ++ m) = none := by
  have htake : (h ++ m).take 4 = h := take_left' hh
  have hpos : frameSize h ≠ 0 := by omega
  simp [nextFrame, htake, hpos, hh, hsize]

theorem nextFrame_frame (skip : Bool) (f : Frame) (m : List Nat) :
    nextFrame skip false (f.bytes ++ m) = some ⟨false, [f.payload], m⟩ := by
  have hlen := f.length
  have htake : (f.bytes ++ m).take 4 = f.header := by
    rw [Frame.bytes, append_assoc, take_left' hlen]
  have hdrop : (f.bytes ++ m).drop 4 = f.payload ++ m := by
    rw [Frame.bytes, append_assoc, drop_left' hlen]
  have hbytes : f.bytes.length = 4 + f.payload.length := by rw [Frame.bytes, length_append, hlen]
  have hpos : f.payload.length ≠ 0 := length_eq_zero_iff.not.2 f.nonempty
  have hall : (f.bytes ++ m).drop (4 + f.payload.length) = m := drop_left' hbytes
  have hlong : ¬ ((f.bytes ++ m).length < 4) := by rw [length_append]; omega
  have hfull : ¬ ((f.bytes ++ m).length < 4 + f.payload.length) := by rw [length_append]; omega
  simp only [nextFrame, htake, hdrop, f.size, hpos, hall, hlong, hfull, Bool.false_eq_true, or_self,
    if_false, take_left]

theorem nextFrame_cases (hn : nextFrame skip false w = some p) :
    (∃ h m, w = h ++ m ∧ h.length = 4 ∧ frameSize h = 0 ∧ p = ⟨!skip, [], m⟩) ∨
    (∃ f m, w = Frame.bytes f ++ m ∧ p = ⟨false, [f.payload], m⟩) := by
  have hsplit : w = w.take 4 ++ w.drop 4 := (take_append_drop 4 w).symm
  simp only [nextFrame, Bool.false_eq_true, false_or] at hn
  split at hn
  · cases hn
  next hlen =>
    have hhead : (w.take 4).length = 4 := by rw [length_take]; omega
    split at hn
    next hbad => exact Or.inl ⟨_, _, hsplit, hhead, hbad, (Option.some.inj hn).symm⟩
    next hsize =>
      split at hn
      · cases hn
      next hfull =>
        have hpay : ((w.drop 4).take (frameSize (w.take 4))).length = frameSize (w.take 4) := by
          rw [length_take, length_drop]
          omega
        refine Or.inr ⟨⟨w.take 4, (w.drop 4).take (frameSize (w.take 4)), hhead, hpay.symm, ?_⟩,
          w.drop (4 + frameSize (w.take 4)), ?_, (Option.some.inj hn).symm⟩
        · exact ne_nil_of_length_pos (by omega)
        · rw [Frame.bytes, append_assoc, ← drop_drop, take_append_drop, take_append_drop]

theorem nextFrame_incremental (skip : Bool) : Incremental (nextFrame skip) where
  shorter := by
    intro s w p hn
    cases s with
    | true => rw [nextFrame_stopped] at hn; cases hn
    | false =>
      obtain ⟨h, m, rfl, hh, -, rfl⟩ | ⟨f, m, rfl, rfl⟩ := nextFrame_cases hn
      · simp only [length_append, hh]
        omega
      · simp only [Frame.bytes, length_append, f.length]
        omega
  extend := by
    intro s w p m hn
    cases s with
    | true => rw [nextFrame_stopped] at hn; cases hn
    | false =>
      obtain ⟨h, m', rfl, hh, hbad, rfl⟩ | ⟨f, m', rfl, rfl⟩ := nextFrame_cases hn
      · rw [append_assoc, nextFrame_bad hh hbad]
      · rw [append_assoc, nextFrame_frame]

end Next

/-! ### The sinks and the pending input -/

/-- What the sinks hold is the input that is not parsed yet. -/
inductive Holds (c : Client) : Bool → List Nat → Prop where
  | header (w : List Nat) (hf : c.framing = true) (hneed : c.needHeader = true)
      (hsink : c.header = ⟨w.length, 4⟩) (hlen : w.length < 4) (hread : c.header0.read w.length = w) :
      Holds c false w
  | payload (h w : List Nat) (hf : c.framing = true) (hneed : c.needHeader = false)
      (hheader : c.header = ⟨0, 4⟩) (hh : h.length = 4) (hlen : w.length < frameSize h)
      (hsink : c.payload = ⟨w.length, frameSize h⟩) (hread : c.data.read w.length = w) :
      Holds c false (h ++ w)
  -- the bad header fills its sink
  | stuck (hf : c.framing = true) (hneed : c.needHeader = true) (hsink : c.header = ⟨4, 4⟩)
      (hbad : frameSize (c.header0.read 4) = 0) : Holds c true []

theorem holds_alloc : Holds (alloc true) false [] := Holds.header [] rfl rfl rfl (by decide) rfl

namespace Client
variable {c : Client} {h w : List Nat}

theorem readPayload_cases (hf : c.framing = true) (hneed : c.needHeader = false)
    (hheader : c.header = ⟨0, 4⟩) (hh : h.length = 4) (hlen : w.length < frameSize h)
    (hsink : c.payload = ⟨w.length, frameSize h⟩) (hread : c.data.read w.length = w) :
    (nextFrame false false (h ++ (w ++ msg)) = none ∧
      ∃ c', readPayload c msg = .leave c' ∧ Holds c' false (h ++ (w ++ msg))) ∨
    (∃ p, nextFrame false false (h ++ (w ++ msg)) = some p ∧ p.rest.length < msg.length ∧
      ∃ c', readPayload c msg = .again c' p.rest p.items ∧ Holds c' p.state []) := by
  obtain ⟨hpart, data, hfill, hdata⟩ | ⟨a, r, rfl, hane, hsize, data, hfill, hdata⟩ :=
    sinkFill_cases msg hlen hread
  · refine Or.inl ⟨nextFrame_part hh hpart, _, by rw [readPayload, hsink, hfill], ?_⟩
    exact Holds.payload h (w ++ msg) hf hneed hheader hh hpart rfl hdata
  have hnext := nextFrame_frame false ⟨h, w ++ a, hh, hsize.symm, by simp [hane]⟩ r
  rw [Frame.bytes, append_assoc, append_assoc] at hnext
  refine Or.inr ⟨_, hnext, length_lt_append hane r, { c with
    payload := ⟨frameSize h, frameSize h⟩, needHeader := true
    data := Function.update data (frameSize h) 0 }, ?_, Holds.header [] hf rfl hheader (by decide) rfl⟩
  simp [readPayload, hsink, hfill, Buffer.read_update (Nat.le_refl _), hdata]

end Client

theorem recvTurn_follows : Follows (nextFrame false) recvTurn Holds (fun stopped => stopped = false) where
  pending := by
    intro c s w hc
    cases hc with
    | header _ _ _ _ hlen _ => exact nextFrame_short hlen
    | payload h w _ _ _ hh hlen _ _ => exact nextFrame_part hh hlen
    | stuck => exact nextFrame_stopped _
  dead := by
    intro s hs w
    obtain rfl : s = true := by simpa using hs
    exact nextFrame_stopped w
  turns := by
    intro c s w msg hc hlive hmsg
    cases hc with
    | stuck => cases hlive
    | payload h w hf hneed hheader hh hlen hsink hread =>
      have hturn : c.recvTurn msg = c.readPayload msg := by simp [recvTurn, hneed]
      rw [hturn, append_assoc]
      exact (readPayload_cases msg hf hneed hheader hh hlen hsink hread).imp_right Or.inl
    | header w hf hneed hsink hlen hread =>
      obtain ⟨hpart, header0, hfill, hheader0⟩ | ⟨a, r, rfl, hane, hh, header0, hfill, hheader0⟩ :=
        sinkFill_cases msg hlen hread
      · refine Or.inl ⟨nextFrame_short hpart, _, ?_, Holds.header (c := { c with
          header := ⟨(w ++ msg).length, 4⟩, header0 }) _ hf hneed rfl hpart hheader0⟩
        simp [recvTurn, hneed, hsink, hfill]
      have hshort := length_lt_append hane r
      rw [← append_assoc]
      by_cases hbad : frameSize (w ++ a) = 0
      · -- the bad header stays in its sink
        refine Or.inr (Or.inl ⟨_, nextFrame_bad hh hbad, hshort, _, ?_, Holds.stuck (c := { c with
          header := ⟨4, 4⟩, header0 }) hf hneed rfl (by rw [hheader0]; exact hbad)⟩)
        simp only [recvTurn, hneed, if_true, hsink, hfill, hheader0]
        split
        · rfl
        · rfl
        next n hn => simp [frameSize, hn] at hbad
      obtain ⟨n, hn⟩ : ∃ n, hex2int (w ++ a) = some (n + 1) := by
        cases hhex : hex2int (w ++ a) with
        | none => simp [frameSize, hhex] at hbad
        | some k => exact ⟨k - 1, by simp [frameSize, hhex] at hbad; congr 1; omega⟩
      have hsize : frameSize (w ++ a) = n + 1 := by rw [frameSize, hn, Option.getD_some]
      let c₁ : Client := { c with
        header := ⟨0, 4⟩, header0, needHeader := false, payload := ⟨0, n + 1⟩, data := fun _ => 0 }
      have hturn : c.recvTurn (a ++ r) = c₁.readPayload r := by
        simp [recvTurn, hneed, hsink, hfill, hheader0, hn, c₁]
      rw [hturn]
      obtain hleave | ⟨p, hnext, hlt, hagain⟩ :=
        readPayload_cases (c := c₁) (w := []) r hf rfl rfl hh
          (by rw [hsize]; exact Nat.succ_pos n) (by rw [hsize]; rfl) rfl
      · exact Or.inl hleave
      · exact Or.inr (Or.inl ⟨p, hnext, Nat.lt_trans hlt hshort, hagain⟩)

/-! ### Messages -/

variable {c : Client} {s : Bool} {stream w : List Nat}

/-- `qemud_client_recv` on a message that is parsed to its end. The short cut is not taken: a full
header is a bad one. -/
theorem Client.recv_eq {fuel : Nat} (hc : Holds c s w)
    (hfine : (parse (nextFrame false) s (w ++ msg)).Fine (fun stopped => stopped = false))
    (hfuel : msg.length < fuel) : ∃ c', c.recv fuel msg = some (c', (parse (nextFrame false) s (w ++ msg)).items) ∧
      Holds c' (parse (nextFrame false) s (w ++ msg)).state (parse (nextFrame false) s (w ++ msg)).rest := by
  have hslow : c.recv fuel msg = loop recvTurn fuel c msg := by
    cases hc with
    | header _ hf hneed hsink hlen _ =>
      simp [recv, hf, sinkNeeded, hsink, show 4 - w.length ≠ 0 by omega]
    | payload h w hf hneed => simp [recv, hf, hneed]
    | stuck hf =>
      rw [parse_none (nextFrame_stopped _)] at hfine
      obtain hfalse | hnil := hfine
      · cases hfalse
      · obtain rfl : msg = [] := hnil
        simp [recv, hf]
  rw [hslow]
  exact recvTurn_follows.loop_eq (nextFrame_incremental false) hc hfine hfuel

theorem Client.recvTurn_stuck (hc : Holds c true w) : c.recvTurn msg = .again c msg [] := by
  cases hc with
  | stuck hf hneed hsink hbad =>
    have hfill : sinkFill c.header c.header0 msg = (true, c.header, c.header0, msg) :=
      sinkFill_stuck (hsink ▸ Nat.le_refl 4)
    simp only [recvTurn, hneed, if_true, hfill]
    split
    · simp [← hneed]
    · simp [← hneed]
    next n hn => simp [frameSize, hn] at hbad

theorem parse_frames (skip : Bool) (fs : List Frame) (m : List Nat) :
    parse (nextFrame skip) false (fs.flatMap Frame.bytes ++ m) =
      (parse (nextFrame skip) false m).before (fs.map Frame.payload) := by
  induction fs with
  | nil => rfl
  | cons f fs ih =>
    rw [flatMap_cons, append_assoc, (nextFrame_incremental skip).parse_some (nextFrame_frame skip f _), ih]
    rfl

theorem bad_header_of_stopped (hs : s = false) (hstop : (parse (nextFrame false) s w).state = true) :
    ∃ (fs : List Frame) (h : List Nat), h.length = 4 ∧ frameSize h = 0 ∧
      w = fs.flatMap Frame.bytes ++ (h ++ (parse (nextFrame false) s w).rest) := by
  induction s, w using (nextFrame_incremental false).parse_rec with
  | stop s w hn =>
    rw [parse_none hn, hs] at hstop
    cases hstop
  | take s w p hn ih =>
    subst hs
    rw [(nextFrame_incremental false).parse_some hn] at hstop ⊢
    obtain ⟨h, m, rfl, hh, hbad, rfl⟩ | ⟨f, m, rfl, rfl⟩ := nextFrame_cases hn
    · refine ⟨[], h, hh, hbad, ?_⟩
      simp [Parsed.before, Bool.not_false, parse_none (nextFrame_stopped m), flatMap_nil, nil_append]
    · obtain ⟨fs, h, hh, hbad, hm⟩ := ih rfl hstop
      refine ⟨f :: fs, h, hh, hbad, ?_⟩
      rw [flatMap_cons, append_assoc]
      exact congrArg (f.bytes ++ ·) hm

/-- Up to the first bad header it does not matter what is done with bad headers. -/
theorem skip_items (hs : s = false) (hfine : (parse (nextFrame false) s w).Fine (fun stopped => stopped = false)) :
    (parse (nextFrame true) s w).items = (parse (nextFrame false) s w).items := by
  induction s, w using (nextFrame_incremental false).parse_rec with
  | stop s w hn =>
    subst hs
    have hskip : nextFrame true false w = none := by
      cases hp : nextFrame true false w with
      | none => rfl
      | some p =>
        obtain ⟨h, m, rfl, hh, hbad, -⟩ | ⟨f, m, rfl, -⟩ := nextFrame_cases hp
        · rw [nextFrame_bad hh hbad] at hn
          cases hn
        · rw [nextFrame_frame] at hn
          cases hn
    rw [parse_none hn, parse_none hskip]
  | take s w p hn ih =>
    subst hs
    rw [(nextFrame_incremental false).parse_some hn] at hfine ⊢
    obtain ⟨h, m, rfl, hh, hbad, rfl⟩ | ⟨f, m, rfl, rfl⟩ := nextFrame_cases hn
    · rw [Bool.not_false, parse_none (nextFrame_stopped m)] at hfine ⊢
      obtain hfalse | rfl := hfine
      · cases hfalse
      · rw [(nextFrame_incremental true).parse_some (nextFrame_bad hh hbad)]
        rfl
    · rw [(nextFrame_incremental true).parse_some (nextFrame_frame true f m)]
      exact congrArg ([f.payload] ++ ·) (ih rfl hfine)

/-! ### Streams -/

/-- However the stream is cut, every call returns, and the client gets the frames of the stream. -/
def ReceivesFrames (stream : List Nat) : Prop :=
  ∀ msgs : List (List Nat), msgs.flatten = stream →
    ∃ fuel c, calls (Client.recv fuel) (Client.alloc true) msgs = some (c, framesOf stream)

/-- A header that is empty or malformed ends the stream. -/
def BadHeaderLast (stream : List Nat) : Prop :=
  ∀ (fs : List Frame) (h rest : List Nat), h.length = 4 → frameSize h = 0 →
    stream = fs.flatMap Frame.bytes ++ (h ++ rest) → rest = []

theorem badHeaderLast_iff (stream : List Nat) :
    BadHeaderLast stream ↔ (parse (nextFrame false) false stream).Fine (fun stopped => stopped = false) := by
  constructor
  · intro hlast
    by_cases hstate : (parse (nextFrame false) false stream).state = false
    · exact Or.inl hstate
    · obtain ⟨fs, h, hh, hbad, heq⟩ := bad_header_of_stopped rfl (by simpa using hstate)
      exact Or.inr (hlast fs h _ hh hbad heq)
  · intro hfine fs h rest hh hbad heq
    rw [heq, parse_frames, (nextFrame_incremental false).parse_some (nextFrame_bad hh hbad),
      Bool.not_false, parse_none (nextFrame_stopped rest)] at hfine
    obtain hfalse | hrest := hfine
    · cases hfalse
    · exact hrest

/-- A stream with more input behind a bad header is never read to its end, if it comes at once. -/
theorem recv_endless (hbad : ¬ BadHeaderLast stream) (fuel : Nat) :
    calls (recv fuel) (alloc true) [stream] = none := by
  have hslow : (alloc true).recv fuel stream = loop recvTurn fuel (alloc true) stream := by
    simp [recv, alloc, sinkNeeded]
  have hstuck : ∀ {c : Client} {s : Bool} (msg : List Nat), Holds c s [] → ¬ s = false →
      c.recvTurn msg = .again c msg [] := by
    intro c s msg hc hs
    obtain rfl : s = true := by simpa using hs
    exact recvTurn_stuck msg hc
  have hloop : loop recvTurn fuel (alloc true) stream = none :=
    recvTurn_follows.loop_endless (nextFrame_incremental false) hstuck holds_alloc
      (fun hs => absurd rfl hs) ((badHeaderLast_iff stream).not.1 hbad) fuel
  rw [calls, hslow, hloop, Option.bind_none]

theorem not_receivesFrames (hbad : ¬ BadHeaderLast stream) : ¬ ReceivesFrames stream := by
  intro hall
  obtain ⟨fuel, c, hcalls⟩ := hall [stream] (append_nil stream)
  rw [recv_endless hbad fuel] at hcalls
  cases hcalls

/-- The client gets the frames of a stream however it is cut exactly if nothing follows a header that
is empty or malformed. -/
theorem receivesFrames_iff (stream : List Nat) : ReceivesFrames stream ↔ BadHeaderLast stream := by
  constructor
  · intro hall
    by_contra hbad
    exact not_receivesFrames hbad hall
  · intro hlast msgs hmsgs
    have hfine := (badHeaderLast_iff stream).1 hlast
    have hfuel : ∀ msg ∈ msgs, msg.length < stream.length + 1 := by
      intro msg hmem
      have := (sublist_flatten_of_mem hmem).length_le
      rw [hmsgs] at this
      omega
    obtain ⟨c, hcalls, -⟩ := recvTurn_follows.calls_holds (nextFrame_incremental false)
      (recv (stream.length + 1)) msgs
      (fun msg hmem hc hfine => recv_eq msg hc hfine (hfuel msg hmem)) holds_alloc
      (by rw [nil_append, hmsgs]; exact hfine)
    refine ⟨stream.length + 1, c, ?_⟩
    rw [hcalls, nil_append, hmsgs, framesOf, skip_items rfl hfine]

/-- An empty frame and a frame behind it in one message: the call never returns. -/
theorem empty_frame_endless : framesOf [0x30, 0x30, 0x30, 0x30, 0x30, 0x30, 0x30, 0x31, 0x61] = [[0x61]] ∧
      (∀ fuel, calls (recv fuel) (alloc true) [[0x30, 0x30, 0x30, 0x30, 0x30, 0x30, 0x30, 0x31, 0x61]] = none) ∧
      ¬ ReceivesFrames [0x30, 0x30, 0x30, 0x30, 0x30, 0x30, 0x30, 0x31, 0x61] := by
  have hbad : ¬ BadHeaderLast [0x30, 0x30, 0x30, 0x30, 0x30, 0x30, 0x30, 0x31, 0x61] := by
    intro hlast
    have := hlast [] [0x30, 0x30, 0x30, 0x30] [0x30, 0x30, 0x30, 0x31, 0x61] rfl (by decide) rfl
    cases this
  exact ⟨by decide, recv_endless hbad, not_receivesFrames hbad⟩

end GemDroid.Qemud
