import Mathlib

/-! The body of a request or reply in the HTTP rewriter, `proxy/proxy_http_rewriter.c`.

One string buffer takes what is read from one socket until it is sent to the other. In a
chunked body it also takes the lines with the sizes of the chunks. The socket that is read
holds the pieces that have arrived, and one `recv` takes from the first of them only. A send
takes what the other side accepts, call by call. Bytes are numbers. -/
namespace GemDroid.Proxy

inductive DataStatus
  | error
  | needMore
  | completed
  deriving DecidableEq, Repr

inductive BodyMode
  | none
  | knownLength
  | untilClose
  | chunked
  deriving DecidableEq, Repr

inductive ChunkState
  | header
  | data
  | dataEnd
  | trailer
  deriving DecidableEq, Repr

/-- What has arrived at a socket, and whether the other end has closed it. -/
structure Inbox where
  pieces : List (List Nat)
  closed : Bool
  deriving DecidableEq, Repr

/-- `RewriteConnection`, as far as the body is concerned, with the buffer `root->str` and the
headers of `request`. -/
structure Conn where
  str : List Nat
  headers : List (List Nat × List Nat)
  bodyMode : BodyMode
  bodyLength : Int
  bodyTotal : Int
  bodySent : Int
  chunkLength : Int
  chunkTotal : Int
  chunkState : ChunkState
  bodyHasData : Bool
  bodyIsFull : Bool
  bodyIsClosed : Bool
  parseChunkHeader : Bool
  parseChunkTrailer : Bool
  deriving DecidableEq, Repr

/-- The end of what a line of input is as a C string. -/
def cstr (str : List Nat) : List Nat := str.takeWhile fun b => decide (b ≠ 0)

def crlf : List Nat := [0x0d, 0x0a]

def maxBodyBuffer : Nat := 65536

/-! ### Receiving -/

/-- `recv` finds nothing. -/
def Inbox.empty (inbox : Inbox) : DataStatus := if inbox.closed then .error else .needMore

/-- The loop of `proxy_connection_receive`, with the number of bytes received. -/
def receivePieces (closed : Bool) : List (List Nat) → List Nat → Nat → DataStatus × List Nat × Nat × Inbox
  | [], str, wanted => (if wanted = 0 then .completed else Inbox.empty ⟨[], closed⟩, str, 0, ⟨[], closed⟩)
  | piece :: pieces, str, wanted =>
    if wanted = 0 then (.completed, str, 0, ⟨piece :: pieces, closed⟩)
    else if wanted < piece.length then
      (.completed, str ++ piece.take wanted, wanted, ⟨piece.drop wanted :: pieces, closed⟩)
    else
      match receivePieces closed pieces (str ++ piece) (wanted - piece.length) with
      | (ret, str, n, inbox) => (ret, str, piece.length + n, inbox)

def receive (str : List Nat) (inbox : Inbox) (wanted : Nat) : DataStatus × List Nat × Nat × Inbox :=
  receivePieces inbox.closed inbox.pieces str wanted

/-- The end of a line: its carriage return goes with its line feed. -/
def stripCr (str : List Nat) : List Nat := if str.getLast? = some 0x0d then str.dropLast else str

/-- The loop of `proxy_connection_receive_line` over a piece: the line and what is left of the
piece, if the line ends in it. -/
def lineIn (str : List Nat) : List Nat → List Nat × Option (List Nat)
  | [] => (str, none)
  | c :: piece => if c = 0x0a then (stripCr str, some piece) else lineIn (str ++ [c]) piece

def linePieces (closed : Bool) : List (List Nat) → List Nat → DataStatus × List Nat × Inbox
  | [], str => (Inbox.empty ⟨[], closed⟩, str, ⟨[], closed⟩)
  | piece :: pieces, str =>
    match lineIn str piece with
    | (str, some rest) => (.completed, str, ⟨rest :: pieces, closed⟩)
    | (str, none) => linePieces closed pieces str

def receiveLine (str : List Nat) (inbox : Inbox) : DataStatus × List Nat × Inbox :=
  linePieces inbox.closed inbox.pieces str

/-! ### Headers -/

def addToLastHeader (headers : List (List Nat × List Nat)) (line : List Nat) :
    DataStatus × List (List Nat × List Nat) :=
  match headers.getLast? with
  | none => (.error, headers)
  | some (key, value) => (.needMore, headers.dropLast ++ [(key, value ++ line)])

def addLine (headers : List (List Nat × List Nat)) (line : List Nat) : DataStatus × List (List Nat × List Nat) :=
  if line.head? = some 0x20 ∨ line.head? = some 0x09 then addToLastHeader headers line
  else
    match line.dropWhile fun b => decide (b ≠ 0x3a) with
    | [] => (.error, headers)
    | _ :: value =>
      (.completed, headers ++ [(line.takeWhile fun b => decide (b ≠ 0x3a), value.dropWhile fun b => decide (b = 0x20))])

/-- `rewrite_connection_read_headers`. Every line takes a byte, so their number bounds the loop. -/
def readHeaders : Nat → Conn → Inbox → DataStatus × Conn × Inbox
  | 0, c, inbox => (.needMore, c, inbox)
  | n + 1, c, inbox =>
    match receiveLine c.str inbox with
    | (.completed, str, inbox) =>
      if cstr str = [] then (.completed, { c with str := [] }, inbox)
      else
        match addLine c.headers (cstr str) with
        | (.error, headers) => (.error, { c with str := [], headers := headers }, inbox)
        | (_, headers) => readHeaders n { c with str := [], headers := headers } inbox
    | (ret, str, inbox) => (ret, { c with str := str }, inbox)

/-! ### Sizes of chunks -/

def isSpace (c : Nat) : Bool := decide (c = 0x20 ∨ 0x09 ≤ c ∧ c ≤ 0x0d)

def hexValue (c : Nat) : Option Nat :=
  if 0x30 ≤ c ∧ c ≤ 0x39 then some (c - 0x30)
  else if 0x61 ≤ c ∧ c ≤ 0x66 then some (c - 0x61 + 10)
  else if 0x41 ≤ c ∧ c ≤ 0x46 then some (c - 0x41 + 10)
  else none

/-- The number made of the digits in front, and what follows them. -/
def hexDigits (value : Nat) : List Nat → Nat × List Nat
  | [] => (value, [])
  | c :: line =>
    match hexValue c with
    | none => (value, c :: line)
    | some d => hexDigits (16 * value + d) line

def skipPrefix (line : List Nat) : List Nat :=
  match line with
  | 0x30 :: x :: c :: rest => if (x = 0x78 ∨ x = 0x58) ∧ (hexValue c).isSome then c :: rest else line
  | _ => line

/-- `strtoll` with base 16: the value, within its bounds, and where it ends. -/
def strtoll16 (line : List Nat) : Int × List Nat :=
  let text := line.dropWhile isSpace
  let negative := decide (text.head? = some 0x2d)
  let text := if text.head? = some 0x2d ∨ text.head? = some 0x2b then text.tail else text
  let digits := skipPrefix text
  if (digits.head?.bind hexValue).isNone then (0, line)
  else
    let (value, rest) := hexDigits 0 digits
    (if negative then max (-2 ^ 63) (-(value : Int)) else min (2 ^ 63 - 1) (value : Int), rest)

/-! ### Reading the body -/

def readData (c : Conn) (inbox : Inbox) (wanted : Int) : DataStatus × Conn × Inbox :=
  let avail : Int := maxBodyBuffer - c.str.length
  if avail ≤ 0 then (.needMore, { c with bodyIsFull := true }, inbox)
  else
    let wanted := if wanted > avail then avail else wanted
    match receive c.str inbox wanted.toNat with
    | (ret, str, recv, inbox) =>
      let c := { c with
        str := str
        bodyHasData := decide (str.length > 0)
        bodyIsFull := decide (str.length = maxBodyBuffer) }
      match ret with
      | .error =>
        if c.bodyMode = .untilClose then
          (.completed, { c with bodyTotal := c.bodyTotal + recv, bodyIsClosed := true }, inbox)
        else (.error, c, inbox)
      | _ =>
        match c.bodyMode with
        | .chunked =>
          let c := { c with chunkTotal := c.chunkTotal + recv, chunkLength := c.chunkLength - recv }
          if c.chunkLength = 0 then
            (.needMore, { c with
              bodyTotal := c.bodyTotal + c.chunkTotal
              chunkTotal := 0
              chunkLength := -1
              chunkState := .data }, inbox)
          else (.needMore, c, inbox)
        | .knownLength =>
          let c := { c with bodyLength := c.bodyLength - recv, bodyTotal := c.bodyTotal + recv }
          if c.bodyLength = 0 then (.completed, { c with bodyIsClosed := true }, inbox) else (.needMore, c, inbox)
        | .untilClose => (.needMore, { c with bodyTotal := c.bodyTotal + recv }, inbox)
        | .none => (.needMore, c, inbox)

def readTrailer (c : Conn) (inbox : Inbox) : DataStatus × Conn × Inbox :=
  if c.parseChunkTrailer = false ∧ c.bodyHasData = true then (.needMore, c, inbox)
  else
    match readHeaders (inbox.pieces.flatten.length + 1) { c with parseChunkTrailer := true } inbox with
    | (.completed, c, inbox) => (.completed, { c with bodyIsClosed := true }, inbox)
    | r => r

def wantedOf (length : Int) : Int := if length > maxBodyBuffer then maxBodyBuffer else length

def readHeader (c : Conn) (inbox : Inbox) : DataStatus × Conn × Inbox :=
  if c.parseChunkHeader = false ∧ c.bodyHasData = true then (.needMore, c, inbox)
  else
    match receiveLine c.str inbox with
    | (.completed, str, inbox) =>
      let c := { c with str := str, parseChunkHeader := false }
      let (length, rest) := strtoll16 (cstr str)
      if (cstr str).head? = some 0x20 ∨ (rest ≠ [] ∧ rest.head? ≠ some 0x3b) then (.error, c, inbox)
      else if length < 0 then (.error, c, inbox)
      else
        let c := { c with str := str ++ crlf, chunkLength := length, chunkTotal := 0 }
        if length = 0 then readTrailer { c with chunkState := .trailer, parseChunkTrailer := false } inbox
        else readData { c with chunkState := .data } inbox (wantedOf length)
    | (ret, str, inbox) => (ret, { c with str := str, parseChunkHeader := true }, inbox)

def readDataEnd (c : Conn) (inbox : Inbox) : DataStatus × Conn × Inbox :=
  match receiveLine c.str inbox with
  | (.completed, str, inbox) =>
    if cstr str ≠ [] then (.error, { c with str := str }, inbox)
    else readHeader { c with str := str ++ crlf, chunkState := .header } inbox
  | (ret, str, inbox) => (ret, { c with str := str }, inbox)

def readBody (c : Conn) (inbox : Inbox) : DataStatus × Conn × Inbox :=
  if c.bodyIsClosed then (.needMore, c, inbox)
  else
    match c.bodyMode with
    | .none => (.completed, c, inbox)
    | .knownLength => if c.bodyLength = 0 then (.completed, c, inbox) else readData c inbox (wantedOf c.bodyLength)
    | .untilClose => readData c inbox maxBodyBuffer
    | .chunked =>
      match c.chunkState with
      | .dataEnd => readDataEnd c inbox
      | .header => readHeader c inbox
      | .trailer => readTrailer c inbox
      | .data => readData c inbox (wantedOf c.chunkLength)

/-! ### Sending the body -/

/-- The loop of `proxy_connection_send`: its status, what is sent, and what is left. Each call of
`send` takes as many bytes as accepted, and none are accepted by a peer that is gone. -/
def sendLoop : List Nat → List Nat → DataStatus × List Nat × List Nat
  | _, [] => (.completed, [], [])
  | [], str => (.needMore, [], str)
  | n :: accepted, str =>
    if n = 0 then (.error, [], str)
    else
      match sendLoop accepted (str.drop n) with
      | (ret, sent, left) => (ret, str.take n ++ sent, left)

def sendBody (c : Conn) (accepted : List Nat) : DataStatus × Conn × List Nat :=
  if c.bodyHasData then
    match sendLoop accepted c.str with
    | (.error, sent, _) => (.error, c, sent)
    | (ret, sent, left) =>
      let c := { c with
        str := left
        bodyIsFull := decide (left.length = maxBodyBuffer)
        bodyHasData := decide (left.length > 0)
        bodySent := c.bodySent + sent.length }
      (if ret = .completed ∧ (c.bodyIsClosed = false ∨ c.bodyHasData = true) then .needMore else ret, c, sent)
  else (.needMore, c, [])

/-! ### The loop around it -/

/-- `rewrite_connection_get_body_length` for a body with `Transfer-Encoding: Chunked`. -/
def startChunked (headers : List (List Nat × List Nat)) : Conn where
  str := []
  headers := headers
  bodyMode := .chunked
  bodyLength := 0
  bodyTotal := 0
  bodySent := 0
  chunkLength := -1
  chunkTotal := 0
  chunkState := .header
  bodyHasData := false
  bodyIsFull := false
  bodyIsClosed := false
  parseChunkHeader := false
  parseChunkTrailer := false

/-- A run of the loop on a body: the connection, what has arrived, what has not, and what has
been sent. `completed` says that the sender has returned `DATA_COMPLETED`, `failed` that the
connection was dropped. -/
structure Run where
  conn : Conn
  inbox : Inbox
  left : List Nat
  sent : List Nat
  completed : Bool
  failed : Bool
  deriving DecidableEq, Repr

/-- What happens next: the next bytes of the body arrive in one piece, or the loop goes around.
`select` has found the one socket readable and the other writable, or not. -/
inductive Event
  | arrive (n : Nat)
  | poll (readable writable : Bool) (accepted : List Nat)
  deriving DecidableEq, Repr

/-- `rewrite_connection_select` and `rewrite_connection_poll` in `STATE_REPLY_BODY` and
`STATE_REQUEST_BODY`. -/
def poll (r : Run) (readable writable : Bool) (accepted : List Nat) : Run :=
  let reads := readable && !r.conn.bodyIsClosed && !r.conn.bodyIsFull
  let writes := writable && r.conn.bodyHasData
  match if reads then readBody r.conn r.inbox else (.needMore, r.conn, r.inbox) with
  | (.error, c, inbox) => { r with conn := c, inbox := inbox, failed := true }
  | (_, c, inbox) =>
    if writes then
      match sendBody c accepted with
      | (ret, c, sent) =>
        { r with
          conn := c
          inbox := inbox
          sent := r.sent ++ sent
          completed := decide (ret = .completed)
          failed := decide (ret = .error) }
    else { r with conn := c, inbox := inbox }

def Run.next (r : Run) : Event → Run
  | .arrive n =>
    { r with
      inbox := { r.inbox with pieces := r.inbox.pieces ++ [r.left.take n] }
      left := r.left.drop n }
  | .poll readable writable accepted =>
    if r.completed || r.failed then r else poll r readable writable accepted

def Run.start (headers : List (List Nat × List Nat)) (body : List Nat) : Run where
  conn := startChunked headers
  inbox := ⟨[], false⟩
  left := body
  sent := []
  completed := false
  failed := false

end GemDroid.Proxy
