import GemDroid.Json.Parser

/-! The streamer of `qobject/json-streamer.c`.

Tokens are collected until braces and brackets balance, close more than was opened, or a limit
is exceeded; then the list goes to the parser. `messages` is what is handed over, and `feed`
runs the parser on it. -/
namespace GemDroid.Json

def maxNesting : Nat := 2 ^ 10

structure MessageParser where
  lexer : Lexer
  braceCount : Int
  bracketCount : Int
  tokens : List Token
  tokenSize : Nat

def braceStep (token : Token) : Int :=
  if token.type = .operator then
    if token.value.head? = some 0x7B then 1 else if token.value.head? = some 0x7D then -1 else 0
  else 0

def bracketStep (token : Token) : Int :=
  if token.type = .operator then
    if token.value.head? = some 0x5B then 1 else if token.value.head? = some 0x5D then -1 else 0
  else 0

namespace MessageParser

def init : MessageParser := ⟨Lexer.init, 0, 0, [], 0⟩

def reset (parser : MessageParser) : MessageParser :=
  { parser with braceCount := 0, bracketCount := 0, tokens := [], tokenSize := 0 }

def collect (parser : MessageParser) (token : Token) : MessageParser := { parser with
  braceCount := parser.braceCount + braceStep token
  bracketCount := parser.bracketCount + bracketStep token
  tokens := parser.tokens ++ [token]
  tokenSize := parser.tokenSize + token.value.length }

/-- What has been collected ends a message: nothing is open, or more is closed than was
opened. -/
def closed (parser : MessageParser) : Bool :=
  decide (parser.braceCount < 0 ∨ parser.bracketCount < 0 ∨ (parser.braceCount = 0 ∧ parser.bracketCount = 0))

/-- What has been collected exceeds a limit. -/
def exceeds (parser : MessageParser) : Bool :=
  decide (parser.tokenSize > maxTokenSize ∨ parser.bracketCount > maxNesting ∨ parser.braceCount > maxNesting)

/-- `json_message_process_token`, with what is handed over: NULL for bad input. -/
def processToken (parser : MessageParser) (token : Token) : MessageParser × List (Option (List Token)) :=
  let parser := parser.collect token
  if token.type = .error then (parser.reset, [none])
  else if parser.closed then (parser.reset, [some parser.tokens])
  else if parser.exceeds then (parser.reset, [some parser.tokens])
  else (parser, [])

def processTokens (parser : MessageParser) : List Token → MessageParser × List (Option (List Token))
  | [] => (parser, [])
  | token :: tokens =>
    let (parser, lists) := parser.processToken token
    let (parser, more) := parser.processTokens tokens
    (parser, lists ++ more)

end MessageParser

inductive Input
  | byte (ch : Byte)
  | flush
  deriving DecidableEq, Repr

namespace MessageParser

def lex (parser : MessageParser) : Input → Except Fault (Lexer × List Token)
  | .byte ch => parser.lexer.feedChar ch false
  | .flush => parser.lexer.flush

def step (parser : MessageParser) (input : Input) : Except Fault (MessageParser × List (Option (List Token))) := do
  let (lexer, tokens) ← parser.lex input
  pure ({ parser with lexer := lexer }.processTokens tokens)

def messages (parser : MessageParser) : List Input → Except Fault (MessageParser × List (Option (List Token)))
  | [] => .ok (parser, [])
  | input :: inputs => do
    let (parser, lists) ← parser.step input
    let (parser, more) ← parser.messages inputs
    pure (parser, lists ++ more)

/-- `json_message_parser_feed` and `json_message_parser_flush`, with an `emit` that runs
`json_parser_parse`: the objects it gives. -/
def feed (parser : MessageParser) : List Input → Except Fault (MessageParser × List (Option QObject))
  | [] => .ok (parser, [])
  | input :: inputs => do
    let (parser, lists) ← parser.step input
    let objects ← lists.mapM jsonParserParse
    let (parser, more) ← parser.feed inputs
    pure (parser, objects ++ more)

end MessageParser

end GemDroid.Json
