import Mathlib.Algebra.Ring.Int.Defs
import Mathlib.Algebra.Ring.Nat

/-! The lexer of `qobject/json-lexer.c`.

The lexer is a table of states. A token ends either with the character that completes it or,
for the states that the source marks `TERMINAL`, with the first character that is not part of
it: such a character is looked at again from the start state. Bytes are numbers up to 255. -/
namespace GemDroid.Json

abbrev Byte := Nat

/-- `enum json_lexer_state`, `IN_ERROR` apart. -/
inductive LexState
  | inDqUcode3
  | inDqUcode2
  | inDqUcode1
  | inDqUcode0
  | inDqStringEscape
  | inDqString
  | inSqUcode3
  | inSqUcode2
  | inSqUcode1
  | inSqUcode0
  | inSqStringEscape
  | inSqString
  | inZero
  | inDigits
  | inDigit
  | inExpE
  | inMantissa
  | inMantissaDigits
  | inNonzeroNumber
  | inNegNonzeroNumber
  | inKeyword
  | inEscape
  | inEscapeL
  | inEscapeLl
  | inEscapeI
  | inEscapeI6
  | inEscapeI64
  | inWhitespace
  | inStart
  deriving DecidableEq, Repr

/-- `JSONTokenType`. A token that has grown too large is given the state of the lexer as its
type. -/
inductive TokenType
  | operator
  | integer
  | float
  | keyword
  | string
  | escape
  | skip
  | error
  | unfinished (state : LexState)
  deriving DecidableEq, Repr

/-- An entry of the table: `IN_ERROR`, a state, or the token type that ends a token. -/
inductive Entry
  | inError
  | state (s : LexState)
  | emit (type : TokenType)
  deriving DecidableEq, Repr

section Table
variable (ch : Byte)

def isDigit : Bool := decide (0x30 ≤ ch ∧ ch ≤ 0x39)

def isLower : Bool := decide (0x61 ≤ ch ∧ ch ≤ 0x7A)

def isXdigit : Bool :=
  isDigit ch || decide (0x61 ≤ ch ∧ ch ≤ 0x66) || decide (0x41 ≤ ch ∧ ch ≤ 0x46)

/-- Space, tab, carriage return and newline. -/
def isSpace : Bool := decide (ch = 0x20 ∨ ch = 0x09 ∨ ch = 0x0D ∨ ch = 0x0A)

/-- The bytes a string may hold: no NUL, and none that UTF-8 never has. -/
def isText : Bool := decide ((1 ≤ ch ∧ ch ≤ 0xBF) ∨ (0xC2 ≤ ch ∧ ch ≤ 0xF4))

/-- A hexadecimal digit of a code point. -/
def ucode (next : LexState) : Entry := if isXdigit ch then .state next else .inError

/-- `TERMINAL(type)`, for a character that has no entry of its own. -/
def terminal (type : TokenType) : Entry := if ch ≤ 0x7F then .emit type else .inError

def jsonLexer : LexState → Entry
  | .inDqUcode3 => ucode ch .inDqString
  | .inDqUcode2 => ucode ch .inDqUcode3
  | .inDqUcode1 => ucode ch .inDqUcode2
  | .inDqUcode0 => ucode ch .inDqUcode1
  | .inDqStringEscape =>
    -- b f n r t, slash, backslash, single and double quote
    if ch = 0x62 ∨ ch = 0x66 ∨ ch = 0x6E ∨ ch = 0x72 ∨ ch = 0x74 ∨ ch = 0x2F ∨ ch = 0x5C ∨ ch = 0x27 ∨
        ch = 0x22 then .state .inDqString
    else if ch = 0x75 then .state .inDqUcode0
    else .inError
  | .inDqString =>
    if ch = 0x5C then .state .inDqStringEscape
    else if ch = 0x22 then .emit .string
    else if isText ch then .state .inDqString
    else .inError
  | .inSqUcode3 => ucode ch .inSqString
  | .inSqUcode2 => ucode ch .inSqUcode3
  | .inSqUcode1 => ucode ch .inSqUcode2
  | .inSqUcode0 => ucode ch .inSqUcode1
  | .inSqStringEscape =>
    -- after an escaped slash or backslash the string goes on as a double quoted one
    if ch = 0x62 ∨ ch = 0x66 ∨ ch = 0x6E ∨ ch = 0x72 ∨ ch = 0x74 ∨ ch = 0x27 ∨ ch = 0x22 then
      .state .inSqString
    else if ch = 0x2F ∨ ch = 0x5C then .state .inDqString
    else if ch = 0x75 then .state .inSqUcode0
    else .inError
  | .inSqString =>
    if ch = 0x5C then .state .inSqStringEscape
    else if ch = 0x27 then .emit .string
    else if isText ch then .state .inSqString
    else .inError
  | .inZero =>
    if isDigit ch then .inError
    else if ch = 0x2E then .state .inMantissa
    else terminal ch .integer
  | .inDigits => if isDigit ch then .state .inDigits else terminal ch .float
  | .inDigit => if isDigit ch then .state .inDigits else .inError
  | .inExpE =>
    if ch = 0x2D ∨ ch = 0x2B then .state .inDigit
    else if isDigit ch then .state .inDigits
    else .inError
  | .inMantissaDigits =>
    if isDigit ch then .state .inMantissaDigits
    else if ch = 0x65 ∨ ch = 0x45 then .state .inExpE
    else terminal ch .float
  | .inMantissa => if isDigit ch then .state .inMantissaDigits else .inError
  | .inNonzeroNumber =>
    if isDigit ch then .state .inNonzeroNumber
    else if ch = 0x65 ∨ ch = 0x45 then .state .inExpE
    else if ch = 0x2E then .state .inMantissa
    else terminal ch .integer
  | .inNegNonzeroNumber =>
    if ch = 0x30 then .state .inZero
    else if isDigit ch then .state .inNonzeroNumber
    else .inError
  | .inKeyword => if isLower ch then .state .inKeyword else terminal ch .keyword
  | .inWhitespace => if isSpace ch then .state .inWhitespace else terminal ch .skip
  | .inEscapeLl => if ch = 0x64 then .emit .escape else .inError
  | .inEscapeL =>
    if ch = 0x64 then .emit .escape
    else if ch = 0x6C then .state .inEscapeLl
    else .inError
  | .inEscapeI64 => if ch = 0x64 then .emit .escape else .inError
  | .inEscapeI6 => if ch = 0x34 then .state .inEscapeI64 else .inError
  | .inEscapeI => if ch = 0x36 then .state .inEscapeI6 else .inError
  | .inEscape =>
    -- d i p s f, then l and I
    if ch = 0x64 ∨ ch = 0x69 ∨ ch = 0x70 ∨ ch = 0x73 ∨ ch = 0x66 then .emit .escape
    else if ch = 0x6C then .state .inEscapeL
    else if ch = 0x49 then .state .inEscapeI
    else .inError
  | .inStart =>
    if ch = 0x22 then .state .inDqString
    else if ch = 0x27 then .state .inSqString
    else if ch = 0x30 then .state .inZero
    else if isDigit ch then .state .inNonzeroNumber
    else if ch = 0x2D then .state .inNegNonzeroNumber
    -- braces, brackets, comma and colon
    else if ch = 0x7B ∨ ch = 0x7D ∨ ch = 0x5B ∨ ch = 0x5D ∨ ch = 0x2C ∨ ch = 0x3A then
      .emit .operator
    else if isLower ch then .state .inKeyword
    else if ch = 0x25 then .state .inEscape
    else if isSpace ch then .state .inWhitespace
    else .inError

end Table

def neededLookahead (old : LexState) (new : Entry) : Bool := decide (jsonLexer 0 old = new)

structure Token where
  type : TokenType
  value : List Byte
  x : Int
  y : Int
  deriving DecidableEq, Repr

structure Lexer where
  state : LexState
  token : List Byte
  x : Int
  y : Int
  deriving DecidableEq, Repr

/-- How feeding goes wrong: an assertion fails, or a loop does not end. -/
inductive Fault
  | assertion
  | endless
  deriving DecidableEq, Repr

def maxTokenSize : Nat := 64 * 2 ^ 20

namespace Lexer

def init : Lexer := ⟨.inStart, [], 0, 0⟩

def tokenOf (lexer : Lexer) (type : TokenType) : Token := ⟨type, lexer.token, lexer.x, lexer.y⟩

def restart (lexer : Lexer) : Lexer := { lexer with state := .inStart, token := [] }

/-- The loop of `json_lexer_feed_char`; the flag says whether it is left by `return`. The
tokens emitted are collected. -/
def feedLoop (ch : Byte) (flush : Bool) : Nat → Lexer → Except Fault (Lexer × List Token × Bool)
  | 0, _ => .error .endless
  | fuel + 1, lexer =>
    let newState := jsonLexer ch lexer.state
    let charConsumed := !neededLookahead lexer.state newState
    let lexer := if charConsumed then { lexer with token := lexer.token ++ [ch] } else lexer
    match newState with
    | .inError => .ok (lexer.restart, [lexer.tokenOf .error], true)
    | .emit type =>
      let emitted := if type = .skip then [] else [lexer.tokenOf type]
      if charConsumed ∨ flush then .ok (lexer.restart, emitted, false)
      else do
        let (lexer, more, returned) ← feedLoop ch flush fuel lexer.restart
        pure (lexer, emitted ++ more, returned)
    | .state s =>
      let lexer := { lexer with state := s }
      if charConsumed ∨ flush then .ok (lexer, [], false) else feedLoop ch flush fuel lexer

def feedChar (ch : Byte) (flush : Bool) (lexer : Lexer) : Except Fault (Lexer × List Token) := do
  let lexer := if ch = 0x0A then { lexer with x := 0, y := lexer.y + 1 } else { lexer with x := lexer.x + 1 }
  let (lexer, emitted, returned) ← feedLoop ch flush 2 lexer
  if returned then pure (lexer, emitted)
  else if lexer.token.length > maxTokenSize then
    pure (lexer.restart, emitted ++ [lexer.tokenOf (.unfinished lexer.state)])
  else pure (lexer, emitted)

def flush (lexer : Lexer) : Except Fault (Lexer × List Token) :=
  if lexer.state = .inStart then .ok (lexer, []) else lexer.feedChar 0 true

end Lexer

end GemDroid.Json
