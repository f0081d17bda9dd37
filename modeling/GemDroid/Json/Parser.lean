import GemDroid.Json.Lexer

/-! The parser of `qobject/json-parser.c`.

The parser works on a list of tokens. It goes back by putting the position it saved in its
place, so a context is the tokens left. Reading past the last token fails an assertion. The
parser is run with no arguments for escapes (`ap` is NULL), as it is on input from outside. -/
namespace GemDroid.Json

/-- A `QObject`. A `QFloat` is given by the text it is read from. The entries of a `QDict` are
in the order `qdict_iter` visits them. -/
inductive QObject
  | int (value : Int)
  | float (text : List Byte)
  | bool (value : Bool)
  | string (value : List Byte)
  | list (items : List QObject)
  | dict (entries : List (List Byte × QObject))

/-! ### Dictionaries -/

abbrev Entries := List (List Byte × QObject)

def tdbHash (name : List Byte) : Nat :=
  let value := name.zipIdx.foldl (fun value p => value + p.1 * 2 ^ (p.2 * 5 % 24)) (0x238F13AF * name.length)
  (1103515243 * value + 12345) % 2 ^ 32

def bucket (key : List Byte) : Nat := tdbHash key % 512

/-- `qdict_put_obj`. A new entry is the first one of its bucket. -/
def qdictPutObj (dict : Entries) (key : List Byte) (value : QObject) : Entries :=
  if dict.any fun e => decide (e.1 = key) then
    dict.map fun e => if e.1 = key then (key, value) else e
  else
    dict.takeWhile (fun e => decide (bucket e.1 < bucket key)) ++
      (key, value) :: dict.dropWhile fun e => decide (bucket e.1 < bucket key)

/-! ### Tokens -/

def tokenIsOperator (token : Token) (op : Byte) : Bool :=
  decide (token.type = .operator ∧ token.value = [op])

def tokenIsKeyword (token : Token) (value : List Byte) : Bool :=
  decide (token.type = .keyword ∧ token.value = value)

/-! ### Errors -/

inductive ParseError
  | keyIsNotString
  | missingColon
  | missingValue
  | expectedSeparatorInDict
  | expectedSeparatorInList
  | expectingValue
  | invalidKeyword (word : List Byte)
  | invalidHexEscape
  | invalidEscape
  deriving DecidableEq, Repr

def ParseError.message : ParseError → String
  | .keyIsNotString => "key is not a string in object"
  | .missingColon => "missing : in object pair"
  | .missingValue => "Missing value in dict"
  | .expectedSeparatorInDict => "expected separator in dict"
  | .expectedSeparatorInList => "expected separator in list"
  | .expectingValue => "expecting value"
  | .invalidKeyword word => "invalid keyword `" ++ String.ofList (word.map Char.ofNat) ++ "'"
  | .invalidHexEscape => "invalid hex escape sequence in string"
  | .invalidEscape => "invalid escape sequence in string"

def ParseError.text (e : ParseError) : String := "JSON parse error, " ++ e.message

structure Ctxt where
  tokens : List Token
  err : Option ParseError

namespace Ctxt

def parseError (ctxt : Ctxt) (e : ParseError) : Ctxt := { ctxt with err := some e }

def restore (ctxt saved : Ctxt) : Ctxt := { ctxt with tokens := saved.tokens }

def popToken (ctxt : Ctxt) : Except Fault (Token × Ctxt) :=
  match ctxt.tokens with
  | [] => .error .assertion
  | token :: tokens => .ok (token, { ctxt with tokens := tokens })

def peekToken (ctxt : Ctxt) : Except Fault Token :=
  match ctxt.tokens with
  | [] => .error .assertion
  | token :: _ => .ok token

end Ctxt

/-! ### Strings -/

/-- `wchar_to_utf8`, as the C string it leaves in its buffer: none for U+0000. -/
def wcharToUtf8 (wchar : Nat) : List Byte :=
  if wchar = 0 then []
  else if wchar ≤ 0x7F then [wchar]
  else if wchar ≤ 0x7FF then [0xC0 + wchar / 64, 0x80 + wchar % 64]
  else [0xE0 + wchar / 4096, 0x80 + wchar / 64 % 64, 0x80 + wchar % 64]

def hex2decimal (ch : Byte) : Nat :=
  if isDigit ch then ch - 0x30 else if 0x61 ≤ ch then 10 + (ch - 0x61) else 10 + (ch - 0x41)

def simpleEscape (ch : Byte) : Option Byte :=
  if ch = 0x22 ∨ ch = 0x27 ∨ ch = 0x5C ∨ ch = 0x2F then some ch
  else if ch = 0x62 then some 0x08
  else if ch = 0x66 then some 0x0C
  else if ch = 0x6E then some 0x0A
  else if ch = 0x72 then some 0x0D
  else if ch = 0x74 then some 0x09
  else none

/-- The loop of `qstring_from_escaped_str`, up to the closing quote or the end. -/
def unescape (quote : Byte) : List Byte → Except ParseError (List Byte)
  | [] => .ok []
  | 0x5C :: ptr =>
    -- the closing quote is looked for first, and is no backslash
    match ptr with
    | 0x75 :: a :: b :: c :: d :: rest =>
      if isXdigit a && isXdigit b && isXdigit c && isXdigit d then do
        let wchar := hex2decimal a * 4096 + hex2decimal b * 256 + hex2decimal c * 16 + hex2decimal d
        let str ← unescape quote rest
        pure (wcharToUtf8 wchar ++ str)
      else .error .invalidHexEscape
    | 0x75 :: _ => .error .invalidHexEscape
    | ch :: rest =>
      match simpleEscape ch with
      | some e => do
        let str ← unescape quote rest
        pure (e :: str)
      | none => .error .invalidEscape
    | [] => .error .invalidEscape
  | ch :: ptr =>
    if ch = quote then .ok []
    else do
      let str ← unescape quote ptr
      pure (ch :: str)

def qstringFromEscapedStr (token : Token) : Except ParseError (List Byte) :=
  match token.value with
  | [] => .ok []
  | q :: ptr => unescape (if q = 0x22 then 0x22 else 0x27) ptr

/-! ### Numbers -/

/-- The decimal digits at the front of a text, as a number. -/
def digitsValue : Nat → List Byte → Nat
  | value, [] => value
  | value, ch :: rest => if isDigit ch then digitsValue (10 * value + (ch - 0x30)) rest else value

/-- `strtoll` in base 10, on the text of an integer token; nothing for `ERANGE`. -/
def strtoll (text : List Byte) : Option Int :=
  let value : Int := match text with
    | 0x2D :: digits => -(digitsValue 0 digits : Int)
    | digits => digitsValue 0 digits
  if -2 ^ 63 ≤ value ∧ value < 2 ^ 63 then some value else none

/-! ### Parsing rules -/

/-- What a rule gives: an object or NULL, and the context it leaves. -/
abbrev Parsed (α : Type) := Option α × Ctxt

/-- The exit of a rule that failed goes back to where it began. -/
def leave {α : Type} (saved : Ctxt) (r : Parsed α) : Parsed α :=
  match r with
  | (some a, ctxt) => (some a, ctxt)
  | (none, ctxt) => (none, ctxt.restore saved)

section Rules
variable (parseValue : Ctxt → Except Fault (Parsed QObject))

def pairBody (dict : Entries) (ctxt : Ctxt) : Except Fault (Parsed Entries) := do
  let _ ← ctxt.peekToken
  let (key, ctxt) ← parseValue ctxt
  match key with
  | some (.string key) =>
    let (token, ctxt) ← ctxt.popToken
    if !tokenIsOperator token 0x3A then pure (none, ctxt.parseError .missingColon)
    else
      let (value, ctxt) ← parseValue ctxt
      match value with
      | none => pure (none, ctxt.parseError .missingValue)
      | some value => pure (some (qdictPutObj dict key value), ctxt)
  | _ => pure (none, ctxt.parseError .keyIsNotString)

def parsePair (dict : Entries) (ctxt : Ctxt) : Except Fault (Parsed Entries) := do
  let r ← pairBody parseValue dict ctxt
  pure (leave ctxt r)

def objectLoop : Nat → Entries → Token → Ctxt → Except Fault (Parsed Entries)
  | 0, _, _, _ => .error .endless
  | fuel + 1, dict, token, ctxt =>
    if tokenIsOperator token 0x7D then .ok (some dict, ctxt)
    else if !tokenIsOperator token 0x2C then
      .ok (none, ctxt.parseError .expectedSeparatorInDict)
    else do
      let (dict, ctxt) ← parsePair parseValue dict ctxt
      match dict with
      | none => pure (none, ctxt)
      | some dict =>
        let (token, ctxt) ← ctxt.popToken
        objectLoop fuel dict token ctxt

def objectBody (ctxt : Ctxt) : Except Fault (Parsed Entries) := do
  let (token, ctxt) ← ctxt.popToken
  if !tokenIsOperator token 0x7B then pure (none, ctxt)
  else
    let peek ← ctxt.peekToken
    if !tokenIsOperator peek 0x7D then
      let (dict, ctxt) ← parsePair parseValue [] ctxt
      match dict with
      | none => pure (none, ctxt)
      | some dict =>
        let (token, ctxt) ← ctxt.popToken
        objectLoop parseValue (ctxt.tokens.length + 1) dict token ctxt
    else
      let (_, ctxt) ← ctxt.popToken
      pure (some [], ctxt)

def parseObject (ctxt : Ctxt) : Except Fault (Parsed QObject) := do
  let r ← objectBody parseValue ctxt
  let (dict, ctxt) := leave ctxt r
  pure (dict.map .dict, ctxt)

def arrayLoop : Nat → List QObject → Token → Ctxt → Except Fault (Parsed (List QObject))
  | 0, _, _, _ => .error .endless
  | fuel + 1, list, token, ctxt =>
    if tokenIsOperator token 0x5D then .ok (some list, ctxt)
    else if !tokenIsOperator token 0x2C then
      .ok (none, ctxt.parseError .expectedSeparatorInList)
    else do
      let (obj, ctxt) ← parseValue ctxt
      match obj with
      | none => pure (none, ctxt.parseError .expectingValue)
      | some obj =>
        let (token, ctxt) ← ctxt.popToken
        arrayLoop fuel (list ++ [obj]) token ctxt

def arrayBody (ctxt : Ctxt) : Except Fault (Parsed (List QObject)) := do
  let (token, ctxt) ← ctxt.popToken
  if !tokenIsOperator token 0x5B then pure (none, ctxt)
  else
    let peek ← ctxt.peekToken
    if !tokenIsOperator peek 0x5D then
      let (obj, ctxt) ← parseValue ctxt
      match obj with
      | none => pure (none, ctxt.parseError .expectingValue)
      | some obj =>
        let (token, ctxt) ← ctxt.popToken
        arrayLoop parseValue (ctxt.tokens.length + 1) [obj] token ctxt
    else
      let (_, ctxt) ← ctxt.popToken
      pure (some [], ctxt)

def parseArray (ctxt : Ctxt) : Except Fault (Parsed QObject) := do
  let r ← arrayBody parseValue ctxt
  let (list, ctxt) := leave ctxt r
  pure (list.map .list, ctxt)

end Rules

def parseEscape (ctxt : Ctxt) : Except Fault (Parsed QObject) := .ok (none, ctxt)

def keywordBody (ctxt : Ctxt) : Except Fault (Parsed QObject) := do
  let (token, ctxt) ← ctxt.popToken
  if token.type ≠ .keyword then pure (none, ctxt)
  -- true and false
  else if tokenIsKeyword token [0x74, 0x72, 0x75, 0x65] then pure (some (.bool true), ctxt)
  else if tokenIsKeyword token [0x66, 0x61, 0x6C, 0x73, 0x65] then pure (some (.bool false), ctxt)
  else pure (none, ctxt.parseError (.invalidKeyword token.value))

def parseKeyword (ctxt : Ctxt) : Except Fault (Parsed QObject) := do
  let r ← keywordBody ctxt
  pure (leave ctxt r)

/-- `parse_literal`. A string that cannot be unescaped gives NULL but is not put back. -/
def parseLiteral (saved : Ctxt) : Except Fault (Parsed QObject) := do
  let (token, ctxt) ← saved.popToken
  match token.type with
  | .string =>
    match qstringFromEscapedStr token with
    | .ok str => pure (some (.string str), ctxt)
    | .error e => pure (none, ctxt.parseError e)
  | .integer =>
    match strtoll token.value with
    | some value => pure (some (.int value), ctxt)
    | none => pure (some (.float token.value), ctxt)
  | .float => pure (some (.float token.value), ctxt)
  | _ => pure (none, ctxt.restore saved)

/-- Try another rule if one has given NULL. -/
def orElse (r : Except Fault (Parsed QObject)) (rule : Ctxt → Except Fault (Parsed QObject)) : Except Fault (Parsed QObject) := do
  match ← r with
  | (some obj, ctxt) => pure (some obj, ctxt)
  | (none, ctxt) => rule ctxt

def parseValue : Nat → Ctxt → Except Fault (Parsed QObject)
  | 0, _ => .error .endless
  | fuel + 1, ctxt =>
    let r := parseObject (parseValue fuel) ctxt
    let r := orElse r (parseArray (parseValue fuel))
    let r := orElse r parseEscape
    let r := orElse r parseKeyword
    orElse r parseLiteral

/-- `json_parser_parse_err`, with the error it propagates. Values are nested no deeper than
there are tokens. -/
def jsonParserParseErr (tokens : Option (List Token)) : Except Fault (Option QObject × Option ParseError) :=
  match tokens with
  | none => .ok (none, none)
  | some [] => .ok (none, none)
  | some tokens => do
    let (result, ctxt) ← parseValue (tokens.length + 1) ⟨tokens, none⟩
    pure (result, ctxt.err)

def jsonParserParse (tokens : Option (List Token)) : Except Fault (Option QObject) := do
  let (result, _) ← jsonParserParseErr tokens
  pure result

end GemDroid.Json
