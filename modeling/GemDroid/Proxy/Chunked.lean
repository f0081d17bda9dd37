import GemDroid.Proxy.Rewriter
import GemDroid.Lib.Reach

/-! What the rewriter does with a chunked body.

After the data of a chunk the state stays at `CHUNK_DATA`, with a length of -1, and nothing is
read any more. If there is no chunk but the last one, its line is never marked as data to be
sent, and the trailer is read into the same buffer. So no body is ever sent to its end. -/
namespace GemDroid.Proxy
open Lib List Option Run

variable {str digits ext after : List Nat} {pieces : List (List Nat)} {c : Conn} {n : Nat}

/-! ### Bodies -/

structure Sized (digits ext : List Nat) (n : Nat) : Prop where
  nonempty : digits ≠ []
  hex : ∀ c ∈ digits, (hexValue c).isSome = true
  value : (hexDigits 0 digits).1 = n
  bound : n < 2 ^ 63
  semicolon : ext = [] ∨ ext.head? = some 0x3b
  text : ∀ c ∈ ext, c ≠ 0 ∧ c ≠ 0x0a ∧ c ≠ 0x0d

/-- A chunk, with its size as it is written and its extension. -/
structure Chunk where
  digits : List Nat
  ext : List Nat
  data : List Nat

def Chunk.bytes (c : Chunk) : List Nat := c.digits ++ c.ext ++ crlf ++ (c.data ++ crlf)

structure Body where
  chunks : List Chunk
  zeros : List Nat
  ext : List Nat
  trailer : List (List Nat)

def Body.bytes (b : Body) : List Nat :=
  b.chunks.flatMap Chunk.bytes ++ (b.zeros ++ b.ext ++ crlf ++ (b.trailer.flatMap (fun line => line ++ crlf) ++ crlf))

structure Body.WellFormed (b : Body) : Prop where
  chunk : ∀ c ∈ b.chunks, c.data ≠ [] ∧ Sized c.digits c.ext c.data.length
  last : Sized b.zeros b.ext 0
  trailer : ∀ line ∈ b.trailer, line ≠ [] ∧ ∀ c ∈ line, c ≠ 0 ∧ c ≠ 0x0a ∧ c ≠ 0x0d

/-! ### Receiving -/

section Receive
variable {bytes : List Nat}

theorem append_cons_inj {a b c d : List Nat} {x : Nat} (ha : x ∉ a) (hc : x ∉ c) (h : a ++ x :: b = c ++ x :: d) :
    a = c ∧ b = d := by
  have hbefore := congrArg (takeWhile (· ≠ x)) h
  rw [takeWhile_append_of_pos (by grind), takeWhile_append_of_pos (by grind)] at hbefore
  obtain rfl : a = c := by simpa using hbefore
  exact ⟨rfl, tail_eq_of_cons_eq (append_cancel_left h)⟩

theorem lineIn_spec (str piece : List Nat) : (0x0a ∉ piece ∧ lineIn str piece = (str ++ piece, none)) ∨
    ∃ line rest, piece = line ++ 0x0a :: rest ∧ 0x0a ∉ line ∧ lineIn str piece = (stripCr (str ++ line), some rest) := by
  induction piece generalizing str with
  | nil => exact .inl ⟨by simp, by simp [lineIn]⟩
  | cons c piece ih =>
    rw [lineIn]
    by_cases hc : c = 0x0a
    · rw [if_pos hc, hc]
      exact .inr ⟨[], piece, rfl, by simp, by simp⟩
    rw [if_neg hc]
    obtain ⟨hno, heq⟩ | ⟨line, rest, hpiece, hline, heq⟩ := ih (str ++ [c])
    · left
      rw [heq]
      exact ⟨by simp [hno, Ne.symm hc], by simp⟩
    · right
      refine ⟨c :: line, rest, by rw [hpiece, cons_append], by simp [hline, Ne.symm hc], ?_⟩
      rw [heq, append_assoc, singleton_append]

theorem linePieces_spec (str : List Nat) (pieces : List (List Nat)) :
    (0x0a ∉ pieces.flatten ∧ linePieces false pieces str = (.needMore, str ++ pieces.flatten, ⟨[], false⟩)) ∨
    ∃ line rest pieces', pieces.flatten = line ++ 0x0a :: rest ∧ 0x0a ∉ line ∧ pieces'.flatten = rest ∧
      linePieces false pieces str = (.completed, stripCr (str ++ line), ⟨pieces', false⟩) := by
  induction pieces generalizing str with
  | nil => exact .inl ⟨by simp, by simp [linePieces, Inbox.empty]⟩
  | cons piece pieces ih =>
    rw [linePieces, flatten_cons]
    obtain ⟨hno, heq⟩ | ⟨line, rest, hpiece, hline, heq⟩ := lineIn_spec str piece
    · rw [heq]
      dsimp only
      obtain ⟨hno', heq'⟩ | ⟨line, rest, pieces', hflat, hline, hrest, heq'⟩ := ih (str ++ piece)
      · left
        rw [heq', append_assoc]
        exact ⟨by simp [hno, hno'], rfl⟩
      · right
        refine ⟨piece ++ line, rest, pieces', by rw [hflat, append_assoc], by simp [hno, hline], hrest, ?_⟩
        rw [heq', append_assoc]
    · right
      refine ⟨line, rest ++ pieces.flatten, rest :: pieces, ?_, hline, by rw [flatten_cons], ?_⟩
      · rw [hpiece, append_assoc, cons_append]
      · rw [heq]

theorem receivePieces_spec (str : List Nat) (pieces : List (List Nat)) (wanted : Nat) :
    ∃ ret n pieces', receivePieces false pieces str wanted = (ret, str ++ pieces.flatten.take n, n, ⟨pieces', false⟩) ∧
      n ≤ wanted ∧ n ≤ pieces.flatten.length ∧ pieces'.flatten = pieces.flatten.drop n ∧ ret ≠ .error := by
  induction pieces generalizing str wanted with
  | nil =>
    refine ⟨if wanted = 0 then .completed else .needMore, 0, [], by simp [receivePieces, Inbox.empty], Nat.zero_le _,
      Nat.zero_le _, rfl, ?_⟩
    split <;> simp
  | cons piece pieces ih =>
    rw [receivePieces, flatten_cons]
    split
    next hzero => exact ⟨.completed, 0, piece :: pieces, by simp, Nat.zero_le _, Nat.zero_le _, by simp, by simp⟩
    next =>
      split
      next hlt =>
        refine ⟨.completed, wanted, piece.drop wanted :: pieces, ?_, le_rfl, ?_, ?_, by simp⟩
        · rw [take_append_of_le_length (by omega)]
        · rw [length_append]
          omega
        · rw [flatten_cons, drop_append_of_le_length (by omega)]
      next hge =>
        obtain ⟨ret, n, pieces', heq, hn, hlen, hflat, hret⟩ := ih (str ++ piece) (wanted - piece.length)
        refine ⟨ret, piece.length + n, pieces', ?_, by omega, ?_, ?_, hret⟩
        · rw [heq, take_length_add_append, append_assoc]
        · rw [length_append]
          omega
        · rw [hflat, drop_length_add_append]

end Receive

/-! ### The line with a size -/

section Line

theorem hexValue_range {c : Nat} (h : (hexValue c).isSome = true) :
    0x30 ≤ c ∧ c ≤ 0x39 ∨ 0x61 ≤ c ∧ c ≤ 0x66 ∨ 0x41 ≤ c ∧ c ≤ 0x46 := by
  unfold hexValue at h
  split at h
  · omega
  split at h
  · omega
  · split at h
    · omega
    · cases h

theorem hexDigits_append (hdigits : ∀ c ∈ digits, (hexValue c).isSome = true)
    (hext : ext = [] ∨ ext.head? = some 0x3b) (value : Nat) :
    hexDigits value (digits ++ ext) = ((hexDigits value digits).1, ext) := by
  induction digits generalizing value with
  | nil =>
    cases ext with
    | nil => rfl
    | cons c ext =>
      obtain hnil | hsemi := hext
      · cases hnil
      · cases hsemi
        rfl
  | cons c digits ih =>
    obtain ⟨d, hd⟩ := isSome_iff_exists.mp (hdigits c (by simp))
    rw [cons_append, hexDigits, hexDigits, hd]
    exact ih (forall_mem_cons.1 hdigits).2 _

section
variable (h : Sized digits ext n)
include h

theorem Sized.notMem : 0x0a ∉ digits ++ ext := by
  rw [mem_append]
  rintro (hd | he)
  · have := hexValue_range (h.hex _ hd)
    omega
  · exact (h.text _ he).2.1 rfl

theorem Sized.cstr : cstr (digits ++ ext) = digits ++ ext := by
  unfold Proxy.cstr
  rw [takeWhile_eq_self_iff]
  intro c hc
  obtain hd | he := mem_append.mp hc
  · have := hexValue_range (h.hex _ hd)
    exact decide_eq_true (by omega)
  · exact decide_eq_true (h.text _ he).1

theorem Sized.strtoll16 : strtoll16 (digits ++ ext) = ((n : Int), ext) := by
  have hbound := h.bound
  have hvalue := hexDigits_append h.hex h.semicolon 0
  rw [h.value] at hvalue
  obtain ⟨d, ds, rfl⟩ := exists_cons_of_ne_nil h.nonempty
  have hd := hexValue_range (h.hex d (by simp))
  have hspace : isSpace d = false := by
    exact decide_eq_false (by omega)
  -- the second character is a digit or a semicolon, never the x of 0x
  have hbegins : skipPrefix (d :: ds ++ ext) = d :: ds ++ ext := by
    unfold skipPrefix
    split
    next x c rest heq =>
      rw [if_neg, heq]
      rintro ⟨hx, -⟩
      cases ds with
      | nil =>
        obtain hnil | hsemi := h.semicolon
        · simp [hnil] at heq
        · rw [cons_append, nil_append] at heq
          rw [tail_eq_of_cons_eq heq] at hsemi
          cases hsemi
          omega
      | cons e ds =>
        have he := hexValue_range (h.hex e (by simp))
        rw [cons_append, cons_append] at heq
        have hex := head_eq_of_cons_eq (tail_eq_of_cons_eq heq)
        omega
    next => rfl
  have hnone : ((d :: ds ++ ext).head?.bind hexValue).isNone = false := by
    rw [cons_append, head?_cons, bind_some]
    simpa using h.hex d (by simp)
  have hdrop : (d :: ds ++ ext).dropWhile isSpace = d :: ds ++ ext := by
    rw [cons_append, dropWhile_cons, hspace]
    rfl
  unfold Proxy.strtoll16
  have h₁ : ¬ ((d :: ds ++ ext).head? = some 0x2d ∨ (d :: ds ++ ext).head? = some 0x2b) := by
    simp only [cons_append, head?_cons, some.injEq]
    omega
  have h₂ : ¬ (d :: ds ++ ext).head? = some 0x2d := fun h => h₁ (.inl h)
  rw [hdrop]
  dsimp only
  rw [if_neg h₁, hbegins, hnone, hvalue, decide_eq_false h₂]
  simp only [Bool.false_eq_true, if_false]
  rw [Int.min_eq_right (by omega)]

theorem receiveLine_size {left : List Nat}
    (hlf : 0x0a ∉ str) (hall : str ++ pieces.flatten ++ left = digits ++ ext ++ crlf ++ after) :
    (receiveLine str ⟨pieces, false⟩ = (.needMore, str ++ pieces.flatten, ⟨[], false⟩) ∧ 0x0a ∉ str ++ pieces.flatten) ∨
    ∃ pieces', receiveLine str ⟨pieces, false⟩ = (.completed, digits ++ ext, ⟨pieces', false⟩) ∧
      pieces'.flatten ++ left = after := by
  obtain ⟨hno, heq⟩ | ⟨line, rest, pieces', hflat, hline, hrest, heq⟩ := linePieces_spec str pieces
  · exact .inl ⟨heq, by simp [hlf, hno]⟩
  right
  have hsplit : (str ++ line) ++ 0x0a :: (rest ++ left) = (digits ++ ext ++ [0x0d]) ++ 0x0a :: after := by
    rw [hflat] at hall
    simpa [crlf] using hall
  obtain ⟨hstr, hafter⟩ := append_cons_inj (by simp [hlf, hline]) (by simpa using h.notMem) hsplit
  have hstrip : stripCr (str ++ line) = digits ++ ext := by
    rw [hstr, stripCr]
    simp
  refine ⟨pieces', ?_, ?_⟩
  · rw [receiveLine, heq, hstrip]
  · rw [hrest, hafter]

end

end Line

/-! ### Calls -/

section Calls

theorem readData_chunked (pieces : List (List Nat)) (hmode : c.bodyMode = .chunked) (hstate : c.chunkState = .data) (hlen : c.chunkLength ≠ 0) :
    ∃ n c' pieces', readData c ⟨pieces, false⟩ (wantedOf c.chunkLength) = (.needMore, c', ⟨pieces', false⟩) ∧
      pieces'.flatten = pieces.flatten.drop n ∧ c'.str = c.str ++ pieces.flatten.take n ∧
      n ≤ pieces.flatten.length ∧ (n : Int) ≤ max 0 c.chunkLength ∧
      c'.chunkLength = (if c.chunkLength - n = 0 then -1 else c.chunkLength - n) ∧
      c'.chunkState = .data ∧ c'.bodyMode = .chunked ∧ c'.bodyIsClosed = c.bodyIsClosed := by
  unfold readData
  dsimp only
  split
  next =>
    refine ⟨0, _, pieces, rfl, rfl, by simp, Nat.zero_le _, by omega, ?_, hstate, hmode, rfl⟩
    rw [if_neg (by omega)]
    simp
  next havail =>
    obtain ⟨ret, n, pieces', heq, hn, hle, hflat, hret⟩ := receivePieces_spec c.str pieces
      (if wantedOf c.chunkLength > (maxBodyBuffer : Int) - c.str.length then (maxBodyBuffer : Int) - c.str.length
        else wantedOf c.chunkLength).toNat
    have hbound : (n : Int) ≤ max 0 c.chunkLength := by
      unfold wantedOf at hn
      split at hn <;> split at hn <;> omega
    rw [receive, heq]
    rw [hmode]
    cases ret with
    | error => exact absurd rfl hret
    | _ =>
      dsimp only
      split
      next hz => exact ⟨n, _, pieces', rfl, hflat, rfl, hle, hbound, (if_pos hz).symm, rfl, rfl, rfl⟩
      next hz => exact ⟨n, _, pieces', rfl, hflat, rfl, hle, hbound, (if_neg hz).symm, hstate, rfl, rfl⟩

theorem sendLoop_spec (accepted str : List Nat) : (sendLoop accepted str).2.1 ++ (sendLoop accepted str).2.2 = str := by
  induction accepted generalizing str with
  | nil => cases str <;> simp [sendLoop]
  | cons n accepted ih =>
    cases str with
    | nil => simp [sendLoop]
    | cons b str =>
      rw [sendLoop]
      · split
        · rfl
        · dsimp only
          rw [append_assoc, ih, take_append_drop]
      · simp

/-- What is sent comes from the front of the buffer. While the body is open the sender is not
done. -/
theorem sendBody_spec (hclosed : c.bodyIsClosed = false) (accepted : List Nat) :
    ∃ ret c' sent left, sendBody c accepted = (ret, c', sent) ∧ sent ++ left = c.str ∧ ret ≠ .completed ∧
      (ret ≠ .error → c'.str = left ∧ c'.chunkState = c.chunkState ∧ c'.chunkLength = c.chunkLength ∧
        c'.bodyMode = c.bodyMode ∧ c'.bodyIsClosed = false) := by
  unfold sendBody
  split
  next =>
    have hsplit := sendLoop_spec accepted c.str
    cases hs : sendLoop accepted c.str with
    | mk ret p =>
      obtain ⟨sent, left⟩ := p
      rw [hs] at hsplit
      let c' := { c with
        str := left
        bodyIsFull := decide (left.length = maxBodyBuffer)
        bodyHasData := decide (left.length > 0)
        bodySent := c.bodySent + sent.length }
      cases ret with
      | error => exact ⟨.error, c, sent, left, rfl, hsplit, by simp, fun h => absurd rfl h⟩
      | needMore =>
        refine ⟨.needMore, c', sent, left, ?_, hsplit, by simp, fun _ => ⟨rfl, rfl, rfl, rfl, hclosed⟩⟩
        dsimp only
        rw [if_neg (by simp)]
      | completed =>
        refine ⟨.needMore, c', sent, left, ?_, hsplit, by simp, fun _ => ⟨rfl, rfl, rfl, rfl, hclosed⟩⟩
        dsimp only
        rw [if_pos ⟨rfl, .inl hclosed⟩]
  next => exact ⟨.needMore, c, [], c.str, rfl, rfl, by simp, fun _ => ⟨rfl, rfl, rfl, rfl, hclosed⟩⟩

theorem readHeaders_frame (n : Nat) (c : Conn) (inbox : Inbox) :
    ∃ str headers, (readHeaders n c inbox).2.1 = { c with str := str, headers := headers } := by
  induction n generalizing c inbox with
  | zero => exact ⟨c.str, c.headers, rfl⟩
  | succ n ih =>
    rw [readHeaders]
    split
    next str inbox' heq =>
      split
      next => exact ⟨[], c.headers, rfl⟩
      next =>
        split
        next headers hadd => exact ⟨[], headers, rfl⟩
        next ret headers _ hadd =>
          obtain ⟨str', headers', hc⟩ := ih { c with str := [], headers := headers } inbox'
          exact ⟨str', headers', hc⟩
    next ret str inbox' _ heq => exact ⟨str, c.headers, rfl⟩

theorem readTrailer_frame (c : Conn) (inbox : Inbox) :
    (readTrailer c inbox).2.1.chunkState = c.chunkState ∧ (readTrailer c inbox).2.1.bodyMode = c.bodyMode ∧
      (readTrailer c inbox).2.1.bodyHasData = c.bodyHasData := by
  unfold readTrailer
  split
  · exact ⟨rfl, rfl, rfl⟩
  obtain ⟨str, headers, hc⟩ := readHeaders_frame (inbox.pieces.flatten.length + 1) { c with parseChunkTrailer := true }
    inbox
  split
  next c' inbox' heq =>
    rw [heq] at hc
    dsimp only at hc ⊢
    rw [hc]
    exact ⟨rfl, rfl, rfl⟩
  next => rw [hc]; exact ⟨rfl, rfl, rfl⟩

end Calls

/-! ### Runs -/

section Runs
variable {b : Body} {r : Run}

/-- The first line is being read. -/
structure InHeader (digits ext after : List Nat) (r : Run) : Prop where
  state : r.conn.chunkState = .header
  mode : r.conn.bodyMode = .chunked
  live : r.conn.bodyIsClosed = false ∧ r.inbox.closed = false
  data : r.conn.bodyHasData = false
  sent : r.sent = []
  line : 0x0a ∉ r.conn.str
  kept : r.conn.str ++ r.inbox.pieces.flatten ++ r.left = digits ++ ext ++ crlf ++ after

/-- The first chunk is being read, or has been. -/
structure InData (body : List Nat) (limit : Nat) (r : Run) : Prop where
  state : r.conn.chunkState = .data
  mode : r.conn.bodyMode = .chunked
  live : r.conn.bodyIsClosed = false ∧ r.inbox.closed = false
  kept : r.sent ++ r.conn.str ++ r.inbox.pieces.flatten ++ r.left = body
  length : (0 < r.conn.chunkLength ∧ (r.sent.length + r.conn.str.length : Int) + r.conn.chunkLength = limit) ∨
    (r.conn.chunkLength = -1 ∧ r.sent.length + r.conn.str.length = limit)

theorem InHeader.arrive (h : InHeader digits ext after r) (k : Nat) : InHeader digits ext after (r.next (.arrive k)) where
  state := h.state
  mode := h.mode
  live := h.live
  data := h.data
  sent := h.sent
  line := h.line
  kept := by
    have := h.kept
    simpa [Run.next] using this

variable {body : List Nat} {limit : Nat}

theorem InData.arrive (h : InData body limit r) (k : Nat) : InData body limit (r.next (.arrive k)) where
  state := h.state
  mode := h.mode
  live := h.live
  kept := by
    have := h.kept
    simpa [Run.next] using this
  length := h.length

/-- The connection when the first line has been read. -/
def sized (c : Conn) (digits ext : List Nat) (n : Nat) : Conn :=
  { c with str := digits ++ ext ++ crlf, parseChunkHeader := false, chunkLength := n, chunkTotal := 0 }

/-- Reading the first line: there is more of it to come, or its size is known. -/
theorem InHeader.read (h : InHeader digits ext after r) (hs : Sized digits ext n) :
    (∃ c inbox, readBody r.conn r.inbox = (.needMore, c, inbox) ∧
      InHeader digits ext after { r with conn := c, inbox := inbox }) ∨
    ∃ pieces, pieces.flatten ++ r.left = after ∧ readBody r.conn r.inbox = if n = 0 then
        readTrailer { sized r.conn digits ext n with chunkState := .trailer, parseChunkTrailer := false }
          ⟨pieces, false⟩
      else readData { sized r.conn digits ext n with chunkState := .data } ⟨pieces, false⟩ (wantedOf n) := by
  have hbody : readBody r.conn r.inbox = readHeader r.conn r.inbox := by
    rw [readBody, h.live.1, h.mode, h.state]
    rfl
  have hinbox : r.inbox = ⟨r.inbox.pieces, false⟩ := by rw [← h.live.2]
  rw [hbody, readHeader, if_neg (by simp [h.data]), hinbox]
  obtain ⟨heq, hline⟩ | ⟨pieces, heq, hafter⟩ := receiveLine_size hs h.line h.kept
  · left
    rw [heq]
    refine ⟨_, _, rfl, h.state, h.mode, ⟨h.live.1, rfl⟩, h.data, h.sent, hline, ?_⟩
    simpa using h.kept
  right
  refine ⟨pieces, hafter, ?_⟩
  have hhead : ¬ ((digits ++ ext).head? = some 0x20 ∨ (ext ≠ [] ∧ ext.head? ≠ some 0x3b)) := by
    rintro (hspace | ⟨hne, hsemi⟩)
    · obtain ⟨d, ds, rfl⟩ := exists_cons_of_ne_nil hs.nonempty
      have := hexValue_range (hs.hex d (by simp))
      rw [cons_append, head?_cons, some.injEq] at hspace
      omega
    · exact hsemi (hs.semicolon.resolve_left hne)
  rw [heq]
  dsimp only
  rw [hs.cstr, hs.strtoll16]
  rw [if_neg hhead, if_neg (by omega)]
  by_cases hn : n = 0
  · rw [if_pos hn, if_pos (by omega)]
    rfl
  · rw [if_neg hn, if_neg (by omega)]
    rfl

section
variable (h : InData body limit r)
include h

/-- Reading data of the first chunk. When all of it is there, nothing is read. -/
theorem InData.read : ∃ c inbox, readData r.conn r.inbox (wantedOf r.conn.chunkLength) = (.needMore, c, inbox) ∧
      InData body limit { r with conn := c, inbox := inbox } := by
  have hinbox : r.inbox = ⟨r.inbox.pieces, false⟩ := by rw [← h.live.2]
  have hlength := h.length
  obtain ⟨n, c, pieces, heq, hflat, hstr, hle, hn, hlen, hstate, hmode, hclosed⟩ :=
    readData_chunked (c := r.conn) r.inbox.pieces h.mode h.state (by omega)
  rw [hinbox]
  refine ⟨c, ⟨pieces, false⟩, heq, hstate, hmode, ⟨hclosed.trans h.live.1, rfl⟩, ?_, ?_⟩
  · have hkept := h.kept
    rw [hstr, hflat, ← hkept]
    simp only [append_assoc]
    rw [← append_assoc (take n _), take_append_drop]
  · dsimp only
    rw [hlen, hstr, length_append, length_take]
    split <;> omega

theorem InData.length_le : r.sent.length + r.conn.str.length ≤ limit := by
  have := h.length
  omega

theorem InData.send (accepted : List Nat) : ∃ ret c sent, sendBody r.conn accepted = (ret, c, sent) ∧ ret ≠ .completed ∧
      r.sent ++ sent <+: body ∧ (r.sent ++ sent).length ≤ limit ∧
      (ret ≠ .error → InData body limit { r with conn := c, sent := r.sent ++ sent }) := by
  obtain ⟨ret, c, sent, left, heq, hsplit, hret, hok⟩ := sendBody_spec h.live.1 accepted
  have hkept : (r.sent ++ sent) ++ (left ++ (r.inbox.pieces.flatten ++ r.left)) = body := by
    rw [← h.kept, ← hsplit]
    simp
  have hle := h.length_le
  rw [← hsplit, length_append] at hle
  refine ⟨ret, c, sent, heq, hret, ⟨_, hkept⟩, by rw [length_append]; omega, ?_⟩
  intro hne
  obtain ⟨hstr, hstate, hlen, hmode, hclosed⟩ := hok hne
  refine ⟨hstate.trans h.state, hmode.trans h.mode, ⟨hclosed, h.live.2⟩, ?_, ?_⟩
  · dsimp only
    rw [hstr, ← hkept]
    simp
  · have hlength := h.length
    rw [← hsplit, length_append] at hlength
    rw [hstr, hlen, length_append]
    omega

end

/-- A run on a body whose first chunk has data. -/
structure FirstChunk (digits ext after : List Nat) (n : Nat) (r : Run) : Prop where
  completed : r.completed = false
  sent : r.sent <+: digits ++ ext ++ crlf ++ after
  short : r.sent.length ≤ (digits ++ ext ++ crlf).length + n
  going : r.failed = false → InHeader digits ext after r ∨
    InData (digits ++ ext ++ crlf ++ after) ((digits ++ ext ++ crlf).length + n) r

section
variable (h : FirstChunk digits ext after n r) (hs : Sized digits ext n) (hn : 0 < n)
  (hgo : r.failed = false)
include h hs hn hgo

theorem FirstChunk.read : ∃ c inbox, readBody r.conn r.inbox = (.needMore, c, inbox) ∧
      (r.conn.bodyHasData = false ∧ InHeader digits ext after { r with conn := c, inbox := inbox } ∨
        InData (digits ++ ext ++ crlf ++ after) ((digits ++ ext ++ crlf).length + n)
          { r with conn := c, inbox := inbox }) := by
  obtain hheader | hdata := h.going hgo
  · obtain ⟨c, inbox, heq, hstill⟩ | ⟨pieces, hafter, heq⟩ := hheader.read hs
    · exact ⟨c, inbox, heq, .inl ⟨hheader.data, hstill⟩⟩
    · -- the line is there, and the data behind it is read in the same call
      rw [if_neg (by omega)] at heq
      let r₁ : Run := { r with
        conn := { sized r.conn digits ext n with chunkState := .data }
        inbox := ⟨pieces, false⟩ }
      have hin : InData (digits ++ ext ++ crlf ++ after) ((digits ++ ext ++ crlf).length + n) r₁ := by
        refine ⟨rfl, hheader.mode, ⟨hheader.live.1, rfl⟩, ?_, ?_⟩
        · show r.sent ++ (digits ++ ext ++ crlf) ++ pieces.flatten ++ r.left = _
          rw [hheader.sent, nil_append, append_assoc _ pieces.flatten, hafter]
        · left
          show (0 : Int) < n ∧ (r.sent.length + (digits ++ ext ++ crlf).length : Int) + n = _
          rw [hheader.sent, length_nil]
          omega
      obtain ⟨c, inbox, hread, hdata⟩ := hin.read
      exact ⟨c, inbox, heq.trans hread, .inr hdata⟩
  · obtain ⟨c, inbox, hread, hstill⟩ := hdata.read
    refine ⟨c, inbox, ?_, .inr hstill⟩
    rw [readBody, hdata.live.1, hdata.mode, hdata.state]
    exact hread

theorem FirstChunk.poll (readable writable : Bool) (accepted : List Nat) :
    FirstChunk digits ext after n (poll r readable writable accepted) := by
  obtain ⟨c, inbox, heq, hphase⟩ : ∃ c inbox,
      (if readable && !r.conn.bodyIsClosed && !r.conn.bodyIsFull then readBody r.conn r.inbox
        else (.needMore, r.conn, r.inbox)) = (.needMore, c, inbox) ∧
      (r.conn.bodyHasData = false ∧ InHeader digits ext after { r with conn := c, inbox := inbox } ∨
        InData (digits ++ ext ++ crlf ++ after) ((digits ++ ext ++ crlf).length + n)
          { r with conn := c, inbox := inbox }) := by
    split
    · exact h.read hs hn hgo
    · refine ⟨r.conn, r.inbox, rfl, ?_⟩
      obtain hheader | hdata := h.going hgo
      · exact .inl ⟨hheader.data, hheader⟩
      · exact .inr hdata
  unfold Proxy.poll
  dsimp only
  rw [heq]
  dsimp only
  split
  next hwrites =>
    obtain ⟨hdata, -⟩ | hdata := hphase
    · rw [hdata, Bool.and_false] at hwrites
      cases hwrites
    obtain ⟨ret, c', sent, hsend, hret, hbegins, hlen, hok⟩ := hdata.send accepted
    rw [hsend]
    refine ⟨decide_eq_false hret, hbegins, hlen, ?_⟩
    intro hfailed
    have hin := hok (of_decide_eq_false hfailed)
    exact .inr ⟨hin.state, hin.mode, hin.live, hin.kept, hin.length⟩
  next =>
    refine ⟨h.completed, h.sent, h.short, ?_⟩
    intro _
    obtain ⟨-, hheader⟩ | hdata := hphase
    · exact .inl hheader
    · exact .inr hdata

end

/-- A run on a body without data: nothing is ever marked as data to be sent. -/
structure NoChunk (digits ext after : List Nat) (r : Run) : Prop where
  completed : r.completed = false
  sent : r.sent = []
  going : r.failed = false → InHeader digits ext after r ∨
    (r.conn.chunkState = .trailer ∧ r.conn.bodyMode = .chunked ∧ r.conn.bodyHasData = false)

section
variable (h : NoChunk digits ext after r) (hs : Sized digits ext 0) (hgo : r.failed = false)
include h hs hgo

theorem NoChunk.read {ret : DataStatus} {inbox : Inbox} (heq : readBody r.conn r.inbox = (ret, c, inbox)) :
    InHeader digits ext after { r with conn := c, inbox := inbox } ∨
      (c.chunkState = .trailer ∧ c.bodyMode = .chunked ∧ c.bodyHasData = false) := by
  obtain hheader | ⟨hstate, hmode, hdata⟩ := h.going hgo
  · obtain ⟨c', inbox', heq', hstill⟩ | ⟨pieces, -, heq'⟩ := hheader.read hs
    · rw [heq'] at heq
      cases heq
      exact .inl hstill
    · right
      rw [if_pos rfl] at heq'
      have hframe := readTrailer_frame { sized r.conn digits ext 0 with chunkState := .trailer, parseChunkTrailer := false }
        ⟨pieces, false⟩
      rw [← heq', heq] at hframe
      exact ⟨hframe.1, hframe.2.1.trans hheader.mode, hframe.2.2.trans hheader.data⟩
  · right
    rw [readBody, hmode, hstate] at heq
    dsimp only at heq
    split at heq
    · cases heq
      exact ⟨hstate, hmode, hdata⟩
    · have hframe := readTrailer_frame r.conn r.inbox
      rw [heq] at hframe
      exact ⟨hframe.1.trans hstate, hframe.2.1.trans hmode, hframe.2.2.trans hdata⟩

theorem NoChunk.poll
    (readable writable : Bool) (accepted : List Nat) : NoChunk digits ext after (poll r readable writable accepted) := by
  have hdata : r.conn.bodyHasData = false := by
    obtain hheader | htrailer := h.going hgo
    · exact hheader.data
    · exact htrailer.2.2
  obtain ⟨ret, c, inbox, heq, hphase⟩ : ∃ ret c inbox,
      (if readable && !r.conn.bodyIsClosed && !r.conn.bodyIsFull then readBody r.conn r.inbox
        else (.needMore, r.conn, r.inbox)) = (ret, c, inbox) ∧
      (InHeader digits ext after { r with conn := c, inbox := inbox } ∨
        (c.chunkState = .trailer ∧ c.bodyMode = .chunked ∧ c.bodyHasData = false)) := by
    split
    · exact ⟨_, _, _, rfl, h.read hs hgo rfl⟩
    · exact ⟨.needMore, r.conn, r.inbox, rfl, h.going hgo⟩
  unfold Proxy.poll
  dsimp only
  rw [heq, hdata, Bool.and_false]
  cases ret with
  | error =>
    refine ⟨h.completed, h.sent, ?_⟩
    intro hfailed
    cases hfailed
  | needMore | completed => exact ⟨h.completed, h.sent, fun _ => hphase⟩

end

theorem FirstChunk.next (h : FirstChunk digits ext after n r) (hs : Sized digits ext n) (hn : 0 < n) (ev : Event) :
    FirstChunk digits ext after n (r.next ev) := by
  cases ev with
  | arrive k =>
    refine ⟨h.completed, h.sent, h.short, ?_⟩
    intro hgo
    obtain hheader | hdata := h.going hgo
    · exact .inl (hheader.arrive k)
    · exact .inr (hdata.arrive k)
  | poll readable writable accepted =>
    rw [Run.next]
    split
    · exact h
    next hover =>
      rw [h.completed, Bool.false_or, Bool.not_eq_true] at hover
      exact h.poll hs hn hover _ _ _

theorem NoChunk.next (h : NoChunk digits ext after r) (hs : Sized digits ext 0) (ev : Event) :
    NoChunk digits ext after (r.next ev) := by
  cases ev with
  | arrive k =>
    refine ⟨h.completed, h.sent, ?_⟩
    intro hgo
    obtain hheader | htrailer := h.going hgo
    · exact .inl (hheader.arrive k)
    · exact .inr htrailer
  | poll readable writable accepted =>
    rw [Run.next]
    split
    · exact h
    next hover =>
      rw [h.completed, Bool.false_or, Bool.not_eq_true] at hover
      exact h.poll hs hover _ _ _

theorem inHeader_start (headers : List (List Nat × List Nat))
    (hbody : body = digits ++ ext ++ crlf ++ after) : InHeader digits ext after (start headers body) where
  state := rfl
  mode := rfl
  live := ⟨rfl, rfl⟩
  data := rfl
  sent := rfl
  line := not_mem_nil
  kept := hbody

end Runs

def oneByte : Body where
  chunks := [⟨[0x31], [], [0x78]⟩]
  zeros := [0x30]
  ext := []
  trailer := []

theorem oneByte_wellFormed : oneByte.WellFormed where
  chunk := by
    intro c hc
    cases mem_singleton.mp hc
    exact ⟨by decide, by decide, by decide, by decide, by decide, by decide, by decide⟩
  last := ⟨by decide, by decide, by decide, by decide, by decide, by decide⟩
  trailer := by
    intro line hline
    cases hline

def oneByteRun : List Event := [.arrive 11, .poll true true [], .poll true true [4]]

/-- No chunked body is ever sent to its end, and the sender never returns `DATA_COMPLETED`,
however the bytes arrive and whatever is accepted. -/
theorem chunked_never_completed {b : Body} (hb : b.WellFormed) {headers : List (List Nat × List Nat)} {r : Run}
    (h : Reach (fun r => r = start headers b.bytes) (fun r ev r' => r' = r.next ev) r) :
    r.completed = false ∧ r.sent <+: b.bytes ∧ r.sent ≠ b.bytes := by
  cases hchunks : b.chunks with
  | nil =>
    have hbytes : b.bytes = b.zeros ++ b.ext ++ crlf ++ (b.trailer.flatMap (fun line => line ++ crlf) ++ crlf) := by
      rw [Body.bytes, hchunks, flatMap_nil, nil_append]
    have hinv : NoChunk b.zeros b.ext (b.trailer.flatMap (fun line => line ++ crlf) ++ crlf) r := by
      apply h.invariant
      · intro r hr
        subst hr
        exact ⟨rfl, rfl, fun _ => .inl (inHeader_start headers hbytes)⟩
      · intro r ev r' hr hnext
        subst hnext
        exact hr.next hb.last ev
    refine ⟨hinv.completed, ?_, ?_⟩
    · rw [hinv.sent]
      exact nil_prefix
    · rw [hinv.sent, hbytes]
      simp [crlf]
  | cons c chunks =>
    obtain ⟨hdata, hsized⟩ := hb.chunk c (by simp [hchunks])
    obtain ⟨after, hbytes⟩ : ∃ after, b.bytes = c.digits ++ c.ext ++ crlf ++ (c.data ++ (crlf ++ after)) := by
      refine ⟨chunks.flatMap Chunk.bytes ++
        (b.zeros ++ b.ext ++ crlf ++ (b.trailer.flatMap (fun line => line ++ crlf) ++ crlf)), ?_⟩
      rw [Body.bytes, hchunks, flatMap_cons, Chunk.bytes]
      simp
    have hinv : FirstChunk c.digits c.ext (c.data ++ (crlf ++ after)) c.data.length r := by
      apply h.invariant
      · intro r hr
        subst hr
        exact ⟨rfl, nil_prefix, Nat.zero_le _, fun _ => .inl (inHeader_start headers hbytes)⟩
      · intro r ev r' hr hnext
        subst hnext
        exact hr.next hsized (length_pos_of_ne_nil hdata) ev
    refine ⟨hinv.completed, hbytes ▸ hinv.sent, ?_⟩
    intro heq
    have hshort := hinv.short
    rw [heq, hbytes] at hshort
    simp only [length_append, crlf, length_cons, length_nil] at hshort
    omega

theorem oneByte_never_completed : (oneByteRun.foldl next (start [] oneByte.bytes)).completed = false ∧
    (oneByteRun.foldl next (start [] oneByte.bytes)).sent <+: oneByte.bytes ∧
    (oneByteRun.foldl next (start [] oneByte.bytes)).sent ≠ oneByte.bytes :=
  chunked_never_completed oneByte_wellFormed (Reach.foldl oneByteRun (fun _ _ _ => rfl) (.start rfl))

/-- The line break after the chunk is not read any more. -/
theorem oneByte_stuck : (oneByteRun.foldl next (start [] oneByte.bytes)).sent = [0x31, 0x0d, 0x0a, 0x78] ∧
    (oneByteRun.foldl next (start [] oneByte.bytes)).left = [] ∧
    (oneByteRun.foldl next (start [] oneByte.bytes)).failed = false ∧
    (oneByteRun.foldl next (start [] oneByte.bytes)).next (.poll true true [4]) =
      oneByteRun.foldl next (start [] oneByte.bytes) := by
  decide +kernel

end GemDroid.Proxy
