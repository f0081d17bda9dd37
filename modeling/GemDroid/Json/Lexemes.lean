import GemDroid.Json.Scans

/-! The tokens of the grammar at the head of `qobject/json-lexer.c`.

Tokens with white space between them are read as these tokens, with an exception: after an
escaped slash or backslash a single quoted string goes on as a double quoted one. What the lexer
asks of a token beyond the grammar is exact: without it the token emitted in its place is an
error, an unfinished one, or a string that ends in another quote. -/
namespace GemDroid.Json
open Lib List

/-! ### The grammar -/

/-- A byte or an escape between the quotes of a string. -/
inductive StringPart (quote : Byte) : List Byte → Prop
  | char {ch : Byte} (hesc : ch ≠ 0x5C) (hquote : ch ≠ quote) : StringPart quote [ch]
  -- b f n r t, slash, backslash, single and double quote
  | escape {ch : Byte} (h : ch ∈ [0x62, 0x66, 0x6E, 0x72, 0x74, 0x2F, 0x5C, 0x27, 0x22]) : StringPart quote [0x5C, ch]
  | ucode {a b c d : Byte} (h : ∀ ch ∈ [a, b, c, d], isXdigit ch = true) : StringPart quote [0x5C, 0x75, a, b, c, d]

def Digits (ds : List Byte) : Prop := ds ≠ [] ∧ ∀ d ∈ ds, isDigit d = true

def zeros : List (List Byte) := [[0x30], [0x2D, 0x30]]

/-- Digits that do not begin with zero, perhaps with a minus sign. -/
def Nonzero (w : List Byte) : Prop :=
  ∃ sign ∈ [[], [0x2D]], ∃ d ds, w = sign ++ d :: ds ∧ d ≠ 0x30 ∧ Digits (d :: ds)

def Fraction (w : List Byte) : Prop := w = [] ∨ ∃ ds, w = 0x2E :: ds ∧ Digits ds

/-- An `e` of either case, perhaps a sign, and digits, or nothing. -/
def Exponent (w : List Byte) : Prop :=
  w = [] ∨ ∃ e ∈ [0x65, 0x45], ∃ sign ∈ [[], [0x2B], [0x2D]], ∃ ds, w = e :: (sign ++ ds) ∧ Digits ds

/-- The texts of each type of token: the grammar at the head of `json-lexer.c`, with a sign before a
number and the exponent left out or not. -/
inductive Lexeme : TokenType → List Byte → Prop
  | string {quote : Byte} {parts : List (List Byte)} (hq : quote ∈ [0x22, 0x27])
    (h : ∀ p ∈ parts, StringPart quote p) : Lexeme .string (quote :: parts.flatten ++ [quote])
  | integer {w : List Byte} (h : w ∈ zeros ∨ Nonzero w) : Lexeme .integer w
  -- after zero an exponent needs a fraction
  | float {w f e : List Byte} (h : w ∈ zeros ∧ f ≠ [] ∨ Nonzero w) (hf : Fraction f) (he : Exponent e)
    (hne : f ++ e ≠ []) : Lexeme .float (w ++ (f ++ e))
  | operator {op : Byte} (h : op ∈ [0x7B, 0x7D, 0x5B, 0x5D, 0x2C, 0x3A]) : Lexeme .operator [op]
  | keyword {b : Byte} {w : List Byte} (h : ∀ c ∈ b :: w, isLower c = true) : Lexeme .keyword (b :: w)

/-- The part of a string that the lexer reads as the grammar does: after an escaped slash or
backslash a single quoted string goes on as a double quoted one. -/
def ReadablePart (quote : Byte) (p : List Byte) : Prop :=
  (∀ b ∈ p, isText b = true) ∧ (quote = 0x27 → ∀ ch ∈ [0x2F, 0x5C], p ≠ [0x5C, ch])

/-- What the lexer asks of a token beyond the grammar. The size is looked at after each byte that
does not end the token, and the quote that closes a string does. -/
structure Readable (type : TokenType) (text : List Byte) : Prop where
  size : text.length ≤ if type = .string then maxTokenSize + 1 else maxTokenSize
  parts : type = .string → ∀ quote (parts : List (List Byte)), text = quote :: parts.flatten ++ [quote] → quote ∈ [0x22, 0x27] →
    (∀ p ∈ parts, StringPart quote p) → ∀ p ∈ parts, ReadablePart quote p

/-- A token with the white space before it. -/
structure Spaced where
  spaces : List Byte
  type : TokenType
  text : List Byte
  blank : ∀ b ∈ spaces, isSpace b = true
  lexeme : Lexeme type text

def ends : List Byte := [0, 0x20, 0x09, 0x0D, 0x0A]

/-- White space or the end of the text ends what is pending. -/
def Mode.Complete (m : Mode) : Prop := ∀ ch ∈ ends, m.EndedBy ch

def Lexes (type : TokenType) (text : List Byte) : Prop :=
  ∃ m ts, Scans .start text m ts ∧ ts ++ m.pending = [bareToken type text] ∧ m.Complete

section Reading
variable {type : TokenType} {text p ds w f e : List Byte} {s s₀ : LexState} {m : Mode}

/-! ### One token -/

/-- The state that a quote leads to. -/
def inString (quote : Byte) : LexState := if quote = 0x22 then .inDqString else .inSqString

theorem StringPart.walk_dq (h : StringPart 0x22 p) (ht : ∀ b ∈ p, isText b = true) :
    walk .inDqString p = some .inDqString := by
  cases h with
  | char hesc hquote => simp [walk, jsonLexer, hesc, hquote, ht _ (mem_singleton_self _)]
  | escape h => exact (by decide : ∀ ch ∈ _, walk .inDqString [0x5C, ch] = some .inDqString) _ h
  | ucode h =>
    simp only [forall_mem_cons] at h
    simp [walk, jsonLexer, Json.ucode, h]

theorem StringPart.walk_sq (h : StringPart 0x27 p) (ht : ∀ b ∈ p, isText b = true)
    (hp : ∀ ch ∈ [0x2F, 0x5C], p ≠ [0x5C, ch]) : walk .inSqString p = some .inSqString := by
  cases h with
  | char hesc hquote => simp [walk, jsonLexer, hesc, hquote, ht _ (mem_singleton_self _)]
  | escape h =>
    refine (by decide : ∀ ch ∈ _, ch ∉ [0x2F, 0x5C] → walk .inSqString [0x5C, ch] = some .inSqString) _ h ?_
    exact fun hch => hp _ hch rfl
  | ucode h =>
    simp only [forall_mem_cons] at h
    simp [walk, jsonLexer, Json.ucode, h]

theorem StringPart.walk {quote : Byte} (hq : quote ∈ [0x22, 0x27]) (h : StringPart quote p)
    (hr : ReadablePart quote p) : Json.walk (inString quote) p = some (inString quote) := by
  simp only [mem_cons, not_mem_nil, or_false] at hq
  obtain rfl | rfl := hq
  · exact h.walk_dq hr.1
  · exact h.walk_sq hr.1 (hr.2 rfl)

theorem quote_opens : ∀ quote ∈ [0x22, 0x27], jsonLexer quote .inStart = .state (inString quote) ∧
    jsonLexer quote (inString quote) = .emit .string ∧ jsonLexer 0 (inString quote) ≠ .emit .string := by
  decide

theorem lexes_string {quote : Byte} {parts : List (List Byte)} (hq : quote ∈ [0x22, 0x27])
    (h : ∀ p ∈ parts, StringPart quote p) (hr : Readable .string (quote :: parts.flatten ++ [quote])) :
    Lexes .string (quote :: parts.flatten ++ [quote]) := by
  have hparts := hr.parts rfl quote parts rfl hq h
  have hlen := hr.size
  simp only [length_append, length_singleton, if_true] at hlen
  -- the closing quote ends the string in the state its opening quote has led to
  obtain ⟨hopen, hclose, hzero⟩ := quote_opens quote hq
  have hwalk := walk_flatten parts fun p hp => (h p hp).walk hq (hparts p hp)
  have hscan : Scans .start (quote :: parts.flatten) ⟨inString quote, _⟩ [] :=
    .walk _ .inStart [] (by rw [walk, hopen]; exact hwalk) (by rw [length_nil]; omega)
  exact ⟨.start, _, hscan.append (.close hclose hzero (by decide)), rfl, fun _ _ => .inl rfl⟩

/-- The text of a token that white space or the end of the text ends. -/
def Pending (type : TokenType) (text : List Byte) : Prop :=
  type ≠ .skip ∧ type ≠ .string ∧ ∃ s, walk .inStart text = some s ∧ ∀ ch ∈ ends, jsonLexer ch s = .emit type

theorem Pending.lexes (h : Pending type text) (hr : Readable type text) : Lexes type text := by
  obtain ⟨ht, hstring, s, hw, hz⟩ := h
  have hzero := hz 0 (by decide)
  have hlen := hr.size
  rw [if_neg hstring] at hlen
  refine ⟨⟨s, text⟩, [], .walk text .inStart [] hw (by simpa using hlen), ?_, ?_⟩
  · rw [Mode.pending_eq hzero 0 0, if_neg ht]
    rfl
  · exact fun ch hch => .inr ⟨type, hz ch hch, hzero⟩

theorem Digits.walk (h : Digits ds) (hfirst : ∀ d, isDigit d = true → jsonLexer d s₀ = .state s)
    (hloop : ∀ d, isDigit d = true → jsonLexer d s = .state s) : walk s₀ ds = some s := by
  obtain ⟨hne, hd⟩ := h
  cases ds with
  | nil => exact absurd rfl hne
  | cons d ds =>
    rw [Json.walk, hfirst d (hd d (by simp))]
    exact walk_loop ds fun c hc => hloop c (hd c (by simp [hc]))

theorem walk_zeros : ∀ w ∈ zeros, walk .inStart w = some .inZero := by decide

theorem Nonzero.walk (h : Nonzero w) : walk .inStart w = some .inNonzeroNumber := by
  obtain ⟨sign, hs, d, ds, rfl, hne, -, hd⟩ := h
  exact walk_number hs (hd d (by simp)) hne fun c hc => hd c (by simp [hc])

theorem Fraction.walk (h : Fraction f) (hne : f ≠ []) (hs : s ∈ [.inZero, .inNonzeroNumber]) :
    walk s f = some .inMantissaDigits := by
  obtain rfl | ⟨ds, rfl, hd⟩ := h
  · exact absurd rfl hne
  have hpoint : ∀ s ∈ [.inZero, .inNonzeroNumber], jsonLexer 0x2E s = .state .inMantissa := by decide
  rw [Json.walk, hpoint s hs]
  exact hd.walk (fun d hd => by simp [jsonLexer, hd]) fun d hd => by simp [jsonLexer, hd]

theorem Exponent.walk (h : Exponent e) (hne : e ≠ []) (hs : s ∈ [.inMantissaDigits, .inNonzeroNumber]) :
    walk s e = some .inDigits := by
  obtain rfl | ⟨c, hc, sign, hsign, ds, rfl, hd⟩ := h
  · exact absurd rfl hne
  have hmark : ∀ s ∈ [.inMantissaDigits, .inNonzeroNumber], ∀ c ∈ [0x65, 0x45],
      jsonLexer c s = .state .inExpE := by decide
  have hdigit : ∀ d, isDigit d = true → jsonLexer d .inDigits = .state .inDigits :=
    fun d hd => by simp [jsonLexer, hd]
  rw [Json.walk, hmark s hs c hc]
  simp only [mem_cons, not_mem_nil, or_false] at hsign
  obtain rfl | rfl | rfl := hsign
  · refine hd.walk (fun d hd => ?_) hdigit
    have hne : ¬(d = 0x2D ∨ d = 0x2B) := by rintro (rfl | rfl) <;> simp [isDigit] at hd
    simp [jsonLexer, if_neg hne, hd]
  all_goals exact hd.walk (fun d hd => by simp [jsonLexer, hd]) hdigit

theorem pending_float (h : w ∈ zeros ∧ f ≠ [] ∨ Nonzero w) (hf : Fraction f) (he : Exponent e)
    (hne : f ++ e ≠ []) : Pending .float (w ++ (f ++ e)) := by
  -- the number ends in its fraction or in its exponent
  obtain ⟨s, hs, hw⟩ : ∃ s ∈ [.inMantissaDigits, .inDigits], walk .inStart (w ++ (f ++ e)) = some s := by
    obtain ⟨s, hs, hz, hw⟩ : ∃ s ∈ [.inZero, .inNonzeroNumber], (s = .inZero → f ≠ []) ∧ walk .inStart w = some s := by
      obtain ⟨h, hf⟩ | h := h
      · exact ⟨_, by simp, fun _ => hf, walk_zeros w h⟩
      · exact ⟨_, by simp, by simp, h.walk⟩
    rw [walk_append, hw, Option.bind_some, walk_append]
    by_cases hfe : f = []
    · subst hfe
      simp only [mem_cons, not_mem_nil, or_false] at hs
      obtain rfl : s = .inNonzeroNumber := hs.resolve_left fun h => hz h rfl
      exact ⟨.inDigits, by simp, he.walk hne (by simp)⟩
    · rw [hf.walk hfe hs, Option.bind_some]
      by_cases hee : e = []
      · exact ⟨.inMantissaDigits, by simp, by rw [hee]; rfl⟩
      · exact ⟨.inDigits, by simp, he.walk hee (by simp)⟩
  refine ⟨by decide, by decide, s, hw, ?_⟩
  exact (by decide : ∀ s ∈ [.inMantissaDigits, .inDigits], ∀ ch ∈ ends, jsonLexer ch s = .emit .float) s hs

theorem pending_keyword {b : Byte} (h : ∀ c ∈ b :: w, isLower c = true) : Pending .keyword (b :: w) := by
  refine ⟨by decide, by decide, .inKeyword, ?_, by decide⟩
  have hfirst : ∀ b < 0x7B, isLower b = true → jsonLexer b .inStart = .state .inKeyword := by
    decide +kernel
  have hlower := h b (by simp)
  rw [walk, hfirst b (by simp [isLower] at hlower; exact Nat.lt_succ_of_le hlower.2) hlower]
  exact walk_loop w fun c hc => by simp [jsonLexer, h c (by simp [hc])]

theorem pending_integer (h : w ∈ zeros ∨ Nonzero w) : Pending .integer w := by
  obtain h | h := h
  · exact ⟨by decide, by decide, _, walk_zeros w h, by decide⟩
  · exact ⟨by decide, by decide, _, h.walk, by decide⟩

theorem Lexeme.lexes (h : Lexeme type text) (hr : Readable type text) : Lexes type text := by
  cases h with
  | string hq h => exact lexes_string hq h hr
  | integer h => exact (pending_integer h).lexes hr
  | float h hf he hne => exact (pending_float h hf he hne).lexes hr
  | operator h => exact ⟨.start, _, scans_operator _ h, rfl, fun _ _ => .inl rfl⟩
  | keyword h => exact (pending_keyword h).lexes hr

theorem Lexeme.begins (h : Lexeme type text) : Begins text := by
  have hzero : ∀ w ∈ zeros, ∀ rest, Begins (w ++ rest) := by
    simp [zeros, Begins, isSpace, Byte]
  have hnonzero : ∀ {w}, Nonzero w → ∀ rest, Begins (w ++ rest) := by
    rintro w ⟨sign, hs, d, ds, rfl, -, -, hd⟩ rest
    simp only [mem_cons, not_mem_nil, or_false] at hs
    obtain rfl | rfl := hs
    · exact begins_cons (.inl (hd d (by simp)))
    · exact ⟨0x2D, _, rfl, by decide, rfl⟩
  cases h with
  | string hq h => exact ⟨_, _, rfl, (by decide : ∀ q ∈ [0x22, 0x27], q ≤ 0x7F ∧ isSpace q = false) _ hq⟩
  | integer h =>
    rw [← append_nil text]
    exact h.elim (hzero text · []) (hnonzero · [])
  | float h => exact h.elim (hzero _ ·.1 _) (hnonzero · _)
  | operator h =>
    refine ⟨_, _, rfl, ?_⟩
    revert h
    exact (by decide : ∀ op ∈ [0x7B, 0x7D, 0x5B, 0x5D, 0x2C, 0x3A], op ≤ 0x7F ∧ isSpace op = false) _
  | keyword h => exact begins_cons (.inr (h _ (by simp)))

/-! ### What is not read -/

/-- The first token that the input leads to is bad. -/
def Spoils (bad : Token → Prop) (m : Mode) (inputs : List Input) : Prop :=
  ∀ x y lexer emitted, lexAll ⟨m.state, m.token, x, y⟩ inputs = .ok (lexer, emitted) →
    ∃ t ts, emitted.map Token.bare = t :: ts ∧ bad t

/-- An error, or a token that has grown too large. -/
def Odd (t : Token) : Prop := t.type = .error ∨ ∃ s, t.type = .unfinished s

variable {bad : Token → Prop} {inputs : List Input} {ts : List Token} {m' : Mode} {ch : Byte}

theorem Lexeme.ne_of_odd {t : Token} (h : Lexeme type text) (ht : Odd t) : t ≠ bareToken type text := by
  rintro rfl
  obtain ht | ⟨s, ht⟩ := ht
  all_goals
    change type = _ at ht
    subst ht
    cases h

theorem Spoils.mono {bad' : Token → Prop} (h : Spoils bad m inputs) (hb : ∀ t, bad t → bad' t) :
    Spoils bad' m inputs := by
  intro x y lexer emitted hl
  obtain ⟨t, ts, hts, ht⟩ := h x y lexer emitted hl
  exact ⟨t, ts, hts, hb t ht⟩

/-- What is emitted after a text that has been read. -/
theorem Scans.rest (h : Scans m w m' ts) {x y : Int} {lexer : Lexer} {emitted : List Token}
    (hl : lexAll ⟨m.state, m.token, x, y⟩ (w.map .byte ++ inputs) = .ok (lexer, emitted)) :
    ∃ x' y' more, lexAll ⟨m'.state, m'.token, x', y'⟩ inputs = .ok (lexer, more) ∧
      emitted.map Token.bare = ts ++ more.map Token.bare := by
  obtain ⟨x', y', first, hw, rfl⟩ := h x y
  rw [lexAll_append, hw, ok_bind] at hl
  obtain ⟨r, hr, hl⟩ := exists_ok_of_bind hl
  obtain ⟨rfl, rfl⟩ := Prod.mk.inj (Except.ok.inj hl)
  exact ⟨x', y', r.2, hr, map_append⟩

theorem Scans.spoils (h : Scans m w m' []) (h' : Spoils bad m' inputs) : Spoils bad m (w.map .byte ++ inputs) := by
  intro x y lexer emitted hl
  obtain ⟨x', y', more, hmore, hts⟩ := h.rest hl
  rw [hts]
  exact h' x' y' lexer more hmore

theorem Scans.spoils_of_bad {t : Token} (h : Scans m w m' (t :: ts)) (ht : bad t) :
    Spoils bad m (w.map .byte ++ inputs) := by
  intro x y lexer emitted hl
  obtain ⟨x', y', more, -, hts⟩ := h.rest hl
  exact ⟨t, _, hts, ht⟩

theorem feedChar_error (h : jsonLexer ch m.state = .inError) (flush : Bool) (x y : Int) :
    ∃ lexer t, Lexer.feedChar ch flush ⟨m.state, m.token, x, y⟩ = .ok (lexer, [t]) ∧ t.type = .error := by
  obtain ⟨x', y', hm⟩ := Lexer.moved_eq ⟨m.state, m.token, x, y⟩ ch
  unfold Lexer.moved at hm
  rw [Lexer.feedChar, hm, Lexer.feedLoop]
  simp only [h]
  exact ⟨_, _, rfl, rfl⟩

theorem spoils_error (h : jsonLexer ch m.state = .inError) : Spoils Odd m (.byte ch :: inputs) := by
  intro x y lexer emitted hl
  obtain ⟨lexer', t, hfeed, ht⟩ := feedChar_error h false x y
  rw [lexAll] at hl
  obtain ⟨r, hr, hl⟩ := exists_ok_of_bind hl
  obtain rfl : _ = r := Except.ok.inj (hfeed.symm.trans hr)
  obtain ⟨r', -, hl⟩ := exists_ok_of_bind hl
  obtain ⟨-, rfl⟩ := Prod.mk.inj (Except.ok.inj hl)
  exact ⟨t.bare, _, rfl, .inl ht⟩

theorem spoils_overrun (h : jsonLexer ch m.state = .state s) (hlen : maxTokenSize ≤ m.token.length) :
    Spoils Odd m (.byte ch :: inputs) := by
  have hscan : Scans m [ch] .start [bareToken (.unfinished s) (m.token ++ [ch])] := by
    intro x y
    obtain ⟨x', y', hm⟩ := Lexer.moved_eq ⟨m.state, m.token, x, y⟩ ch
    refine ⟨x', y', [⟨.unfinished s, m.token ++ [ch], x', y'⟩], ?_, rfl⟩
    have hl : neededLookahead m.state (.state s) = false := by
      simpa [neededLookahead] using jsonLexer_zero m.state s
    have hlong : maxTokenSize < m.token.length + 1 := by omega
    unfold Lexer.moved at hm
    rw [map_singleton, lexAll_byte, Lexer.feedChar, hm, Lexer.feedLoop]
    have hfull : maxTokenSize < (m.token ++ [ch]).length := by rw [length_append]; exact hlong
    simp only [h, hl, Bool.not_false, true_or, if_true, ok_bind, Bool.false_eq_true, if_false, gt_iff_lt, hfull]
    rfl
  exact hscan.spoils_of_bad (.inr ⟨s, rfl⟩)

/-- A text that goes on with the token for too long. -/
theorem spoils_walk (w : List Byte) : ∀ state token, walk state w = some s → token.length ≤ maxTokenSize →
    maxTokenSize < token.length + w.length → Spoils Odd ⟨state, token⟩ (w.map .byte ++ inputs) := by
  induction w with
  | nil =>
    intro state token _ hle hlt
    rw [length_nil] at hlt
    omega
  | cons ch w ih =>
    intro state token hw hle hlt
    rw [length_cons] at hlt
    rw [walk] at hw
    split at hw
    case h_2 => exact absurd hw (by simp)
    case h_1 s' hch =>
      by_cases hfull : maxTokenSize ≤ token.length
      · exact spoils_overrun hch hfull
      · have hstep : Scans ⟨state, token⟩ [ch] ⟨s', token ++ [ch]⟩ [] := .take hch (by dsimp only; omega)
        refine hstep.spoils (ih s' (token ++ [ch]) hw ?_ ?_)
        all_goals rw [length_append, length_singleton]; omega

/-- The states of a double quoted string. -/
def dqStates : List LexState :=
  [.inDqString, .inDqStringEscape, .inDqUcode0, .inDqUcode1, .inDqUcode2, .inDqUcode3]

theorem jsonLexer_dq (ch : Byte) (hs : s ∈ dqStates) : jsonLexer ch s = .inError ∨ (∃ s' ∈ dqStates, jsonLexer ch s = .state s') ∨
    ch = 0x22 ∧ s = .inDqString := by
  simp only [dqStates, mem_cons, not_mem_nil, or_false] at hs
  obtain rfl | rfl | rfl | rfl | rfl | rfl := hs
  all_goals
    simp only [jsonLexer, ucode]
    repeat' split
    all_goals simp_all [dqStates]

/-- From within a double quoted string the next token is odd or ends in a double quote. -/
theorem spoils_dq (w : List Byte) : ∀ state ∈ dqStates, ∀ token,
    Spoils (fun t => Odd t ∨ t.value.getLast? = some 0x22) ⟨state, token⟩ (w.map .byte ++ [.flush]) := by
  induction w with
  | nil =>
    intro state hs token x y lexer emitted hl
    have hzero : ∀ s ∈ dqStates, jsonLexer 0 s = .inError ∧ s ≠ .inStart := by decide
    obtain ⟨lexer', t, hfeed, ht⟩ := feedChar_error (m := ⟨state, token⟩) (hzero state hs).1 true x y
    have hflush : lexAll ⟨state, token, x, y⟩ [.flush] = .ok (lexer', [t]) := by
      rw [lexAll]
      show (Lexer.flush ⟨state, token, x, y⟩ >>= _) = _
      rw [Lexer.flush, if_neg (hzero state hs).2, hfeed]
      rfl
    obtain ⟨-, rfl⟩ := Prod.mk.inj (Except.ok.inj (hflush.symm.trans hl))
    exact ⟨t.bare, [], rfl, .inl (.inl ht)⟩
  | cons ch w ih =>
    intro state hs token
    obtain herr | ⟨s', hs', hch⟩ | ⟨rfl, rfl⟩ := jsonLexer_dq ch hs
    · exact (spoils_error herr).mono fun t => .inl
    · by_cases hfull : maxTokenSize ≤ token.length
      · exact (spoils_overrun hch hfull).mono fun t => .inl
      · exact (Scans.take hch (by dsimp only; omega)).spoils (ih s' hs' _)
    · have hclose : Scans ⟨.inDqString, token⟩ [0x22] .start [bareToken .string (token ++ [0x22])] :=
        .close rfl (show jsonLexer 0 .inDqString ≠ _ by decide) (by decide)
      exact hclose.spoils_of_bad (.inr (by simp [bareToken]))

theorem spoils_of_walk {token : List Byte} {state : LexState} (hw : walk state w = some s)
    (hlen : token.length ≤ maxTokenSize) (hodd : ∀ t, Odd t → bad t)
    (h : (token ++ w).length ≤ maxTokenSize → Spoils bad ⟨s, token ++ w⟩ inputs) :
    Spoils bad ⟨state, token⟩ (w.map .byte ++ inputs) := by
  rw [length_append] at h
  by_cases hfit : token.length + w.length ≤ maxTokenSize
  · exact (Scans.walk w state token hw hfit).spoils (h hfit)
  · exact (spoils_walk w state token hw hlen (by omega)).mono hodd

theorem one_le_maxTokenSize : 1 ≤ maxTokenSize := by decide

/-- What is emitted instead of a string with this quote. -/
def Misread (quote : Byte) (t : Token) : Prop := Odd t ∨ quote = 0x27 ∧ t.value.getLast? = some 0x22

section Parts
variable {quote : Byte} {token : List Byte}

/-- A part that the lexer does not read as the grammar does is an error, or leads into a double
quoted string. -/
theorem StringPart.spoils (hq : quote ∈ [0x22, 0x27]) (h : StringPart quote p) (hr : ¬ReadablePart quote p)
    (hlen : token.length ≤ maxTokenSize) (w : List Byte) :
    Spoils (Misread quote) ⟨inString quote, token⟩ ((p ++ w).map .byte ++ [.flush]) := by
  cases h with
  | @char ch hesc hquote =>
    have ht : isText ch = false := by simpa [ReadablePart] using hr
    refine Spoils.mono (spoils_error ?_) fun t => .inl
    simp only [mem_cons, not_mem_nil, or_false] at hq
    obtain rfl | rfl := hq
    all_goals simp [inString, jsonLexer, hesc, hquote, ht]
  | @escape ch h =>
    obtain ⟨rfl, hch⟩ : quote = 0x27 ∧ ch ∈ [0x2F, 0x5C] := by
      have htext : ∀ b ∈ [0x62, 0x66, 0x6E, 0x72, 0x74, 0x2F, 0x5C, 0x27, 0x22], isText b = true := by decide
      by_contra hno
      refine hr ⟨by simpa using ⟨by decide, htext ch h⟩, fun hquote c hc hpe => hno ⟨hquote, ?_⟩⟩
      obtain rfl : ch = c := by simpa using hpe
      exact hc
    have hw : Json.walk .inSqString [0x5C, ch] = some .inDqString :=
      (by decide : ∀ ch ∈ [0x2F, 0x5C], Json.walk .inSqString [0x5C, ch] = some .inDqString) ch hch
    rw [map_append, append_assoc]
    refine spoils_of_walk hw hlen (fun t => .inl) fun _ => ?_
    exact (spoils_dq w _ (by decide) _).mono fun t => Or.imp_right fun h => ⟨rfl, h⟩
  | @ucode a b c d h =>
    have htext : ∀ ch, isXdigit ch = true → isText ch = true := by
      intro ch hch
      simp only [isXdigit, isDigit, isText, Bool.or_eq_true, decide_eq_true_eq, Byte] at hch ⊢
      omega
    refine absurd ⟨?_, by simp⟩ hr
    simp only [forall_mem_cons] at h ⊢
    exact ⟨by decide, by decide, htext a h.1, htext b h.2.1, htext c h.2.2.1, htext d h.2.2.2.1, by simp⟩

theorem spoils_parts (hq : quote ∈ [0x22, 0x27]) (w : List Byte) (parts : List (List Byte)) : ∀ token : List Byte,
    (∀ p ∈ parts, StringPart quote p) → token.length ≤ maxTokenSize →
    ((∀ p ∈ parts, ReadablePart quote p) → maxTokenSize < token.length + parts.flatten.length) →
    Spoils (Misread quote) ⟨inString quote, token⟩ ((parts.flatten ++ w).map .byte ++ [.flush]) := by
  induction parts with
  | nil =>
    intro token _ hlen hbad
    have := hbad (by simp)
    rw [flatten_nil, length_nil] at this
    omega
  | cons p parts ih =>
    intro token hp hlen hbad
    rw [flatten_cons, append_assoc]
    by_cases hr : ReadablePart quote p
    · rw [map_append, append_assoc]
      refine spoils_of_walk ((hp p (by simp)).walk hq hr) hlen (fun t => .inl) fun hlen' => ?_
      refine ih (token ++ p) (fun p' hp' => hp p' (by simp [hp'])) hlen' fun hall => ?_
      have := hbad (by simpa using ⟨hr, hall⟩)
      rw [flatten_cons, length_append] at this
      rw [length_append]
      omega
    · exact (hp p (by simp)).spoils hq hr hlen _

theorem spoils_string {parts : List (List Byte)} (hq : quote ∈ [0x22, 0x27]) (hp : ∀ p ∈ parts, StringPart quote p)
    (hbad : (∀ p ∈ parts, ReadablePart quote p) → maxTokenSize < (quote :: parts.flatten).length) (w : List Byte) :
    Spoils (· ≠ bareToken .string (quote :: parts.flatten ++ [quote])) .start
      ((quote :: parts.flatten ++ [quote] ++ w).map .byte ++ [.flush]) := by
  have hopen : Scans .start [quote] ⟨inString quote, [quote]⟩ [] := .take (quote_opens quote hq).1 (by decide)
  have hrest := spoils_parts hq ([quote] ++ w) parts [quote] hp one_le_maxTokenSize fun hall => by
    have := hbad hall
    rw [length_cons] at this
    rw [length_singleton]
    omega
  rw [append_assoc, cons_append]
  refine hopen.spoils (hrest.mono ?_)
  -- the token is of another type or ends in another quote
  rintro t (ht | ⟨rfl, ht⟩)
  · exact (Lexeme.string hq hp).ne_of_odd ht
  · rintro rfl
    change (0x27 :: parts.flatten ++ [0x27]).getLast? = some 0x22 at ht
    rw [getLast?_concat] at ht
    cases ht

end Parts

theorem Pending.spoils (h : Pending type text) (hlen : maxTokenSize < text.length) :
    Spoils Odd .start (text.map .byte ++ inputs) := by
  obtain ⟨-, -, s, hw, -⟩ := h
  exact spoils_walk text .inStart [] hw (Nat.zero_le _) (by simpa using hlen)

theorem Lexeme.spoils (h : Lexeme type text) (hr : ¬Readable type text) (w : List Byte) :
    Spoils (· ≠ bareToken type text) .start ((text ++ w).map .byte ++ [.flush]) := by
  have hpending : Pending type text → Spoils (· ≠ bareToken type text) .start ((text ++ w).map .byte ++ [.flush]) := by
    intro hp
    have hlong : maxTokenSize < text.length := by
      by_contra hle
      exact hr ⟨by rw [if_neg hp.2.1]; omega, fun ht => absurd ht hp.2.1⟩
    rw [map_append, append_assoc]
    refine (hp.spoils hlong).mono ?_
    exact fun t => h.ne_of_odd
  cases h with
  | @string quote parts hq h =>
    by_cases hlong : maxTokenSize < (quote :: parts.flatten).length
    · exact spoils_string hq h (fun _ => hlong) w
    · have hparts : ¬_ := fun hparts => hr ⟨by
        rw [if_pos rfl, length_append, length_singleton]
        omega, hparts⟩
      push Not at hparts
      obtain ⟨-, quote', parts', htext, hq', h', p, hp, hbad⟩ := hparts
      rw [htext]
      exact spoils_string hq' h' (fun hall => absurd (hall p hp) hbad) w
  | integer h => exact hpending (pending_integer h)
  | float h hf he hne => exact hpending (pending_float h hf he hne)
  | operator h => exact absurd ⟨one_le_maxTokenSize, by simp⟩ hr
  | keyword h => exact hpending (pending_keyword h)

/-! ### The whole text -/

theorem mem_ends (h : isSpace ch = true) : ch ∈ ends := by
  simp only [isSpace, decide_eq_true_eq] at h
  simp [ends, h]

theorem scans_blank {w : List Byte} (hw : ∀ b ∈ w, isSpace b = true) (hlen : w.length ≤ maxTokenSize)
    (hm : m.Complete) (hs : m = .start ∨ w ≠ []) : ∃ m' : Mode, m'.Blank ∧ Scans m w m' m.pending := by
  obtain ⟨m', hblank, hscan⟩ := scans_spaces w hw hlen
  refine ⟨m', hblank, ?_⟩
  cases w with
  | nil =>
    obtain rfl : m = .start := hs.resolve_right (by simp)
    exact hscan
  | cons b w =>
    have := hscan.restart (hm b (mem_ends (hw b (by simp))))
    rwa [append_nil] at this

/-- What is emitted after a character that ends what is pending. -/
theorem lexAll_restart (he : m.EndedBy ch) {x y : Int} {lexer : Lexer} {emitted : List Token}
    (hl : lexAll ⟨m.state, m.token, x, y⟩ (.byte ch :: inputs) = .ok (lexer, emitted)) :
    ∃ more, lexAll ⟨.inStart, [], x, y⟩ (.byte ch :: inputs) = .ok (lexer, more) ∧
      emitted.map Token.bare = m.pending ++ more.map Token.bare := by
  obtain rfl | ⟨type, hty, hzero⟩ := he
  · exact ⟨emitted, hl, rfl⟩
  obtain ⟨x₁, y₁, hfeed⟩ := feedChar_lookahead ⟨m.state, m.token, x, y⟩ hty hzero
  change (Lexer.feedChar ch false ⟨m.state, m.token, x, y⟩ >>= _) = _ at hl
  rw [hfeed] at hl
  obtain ⟨r, hr, hl⟩ := exists_ok_of_bind hl
  obtain ⟨r₀, hr₀, hr⟩ := exists_ok_of_bind hr
  obtain rfl := Except.ok.inj hr
  obtain ⟨r', hr', hl⟩ := exists_ok_of_bind hl
  obtain ⟨rfl, rfl⟩ := Prod.mk.inj (Except.ok.inj hl)
  refine ⟨r₀.2 ++ r'.2, ?_, ?_⟩
  · change (Lexer.feedChar ch false ⟨.inStart, [], x, y⟩ >>= _) = _
    change Lexer.feedChar ch false ⟨.inStart, [], x, y⟩ = _ at hr₀
    rw [hr₀, ok_bind]
    change (lexAll r₀.1 inputs >>= _) = _
    rw [hr']
    rfl
  · rw [append_assoc, map_append, ← Mode.pending_eq hzero x₁ y₁]

theorem Begins.spoils (hw : Begins w) (hm : m.Blank) (h : Spoils bad .start (w.map .byte ++ inputs)) :
    Spoils bad m (w.map .byte ++ inputs) := by
  obtain ⟨ch, w', rfl, hascii, hch⟩ := hw
  intro x y lexer emitted hl
  obtain ⟨more, hmore, hemitted⟩ := lexAll_restart (hm.endedBy hascii hch) hl
  rw [hm.pending] at hemitted
  rw [hemitted]
  exact h x y lexer more hmore

theorem spoils_spaces (hw : ∀ b ∈ w, isSpace b = true) (hlen : maxTokenSize < w.length) :
    Spoils Odd .start (w.map .byte ++ inputs) := by
  cases w with
  | nil => exact absurd hlen (by simp)
  | cons b w =>
    have hb := jsonLexer_space (hw b (by simp))
    refine spoils_walk (b :: w) .inStart [] (s := .inWhitespace) ?_ (Nat.zero_le _) (by simpa using hlen)
    rw [walk, hb]
    exact walk_spaces w fun c hc => hw c (by simp [hc])

namespace Spaced

def written (i : Spaced) : List Byte := i.spaces ++ i.text

def token (i : Spaced) : Token := bareToken i.type i.text

/-- What the lexer can take of a token and its white space. -/
def Fits (i : Spaced) : Prop := i.spaces.length ≤ maxTokenSize ∧ Readable i.type i.text

theorem scans (i : Spaced) (hf : i.Fits) (hm : m.Complete) (hs : m = .start ∨ i.spaces ≠ []) :
    ∃ m' ts, Scans m i.written m' ts ∧ ts ++ m'.pending = m.pending ++ [i.token] ∧ m'.Complete := by
  obtain ⟨m₁, hblank, hspaces⟩ := scans_blank i.blank hf.1 hm hs
  obtain ⟨m', ts, hscan, hts, hm'⟩ := i.lexeme.lexes hf.2
  refine ⟨m', _, hspaces.append (i.lexeme.begins.scans hblank hscan), ?_, hm'⟩
  rw [append_assoc, hts]
  rfl

/-- Tokens with white space between them, from the start or the end of another. -/
theorem scans_all (items : List Spaced) (hf : ∀ i ∈ items, i.Fits) (hs : ∀ i ∈ items.tail, i.spaces ≠ [])
    (hm : m.Complete) (hfirst : m = .start ∨ ∀ i ∈ items, i.spaces ≠ []) :
    ∃ m' ts, Scans m (items.flatMap written) m' ts ∧ ts ++ m'.pending = m.pending ++ items.map token ∧ m'.Complete := by
  induction items generalizing m with
  | nil => exact ⟨m, [], .nil m, by simp, hm⟩
  | cons i items ih =>
    obtain ⟨m₁, ts₁, hscan₁, hts₁, hm₁⟩ := i.scans (hf i (by simp)) hm (hfirst.imp_right fun h => h i (by simp))
    obtain ⟨m₂, ts₂, hscan₂, hts₂, hm₂⟩ :=
      ih (fun j hj => hf j (by simp [hj])) (fun j hj => hs j (mem_of_mem_tail hj)) hm₁ (.inr hs)
    refine ⟨m₂, ts₁ ++ ts₂, hscan₁.append hscan₂, ?_, hm₂⟩
    rw [append_assoc, hts₂, ← append_assoc, hts₁, append_assoc]
    rfl

theorem reads_all (items : List Spaced) (last : List Byte) (hlast : ∀ b ∈ last, isSpace b = true)
    (hs : ∀ i ∈ items.tail, i.spaces ≠ []) (hf : ∀ i ∈ items, i.Fits) (hlen : last.length ≤ maxTokenSize) :
    ∃ lexer emitted, lexAll .init ((items.flatMap written ++ last).map .byte ++ [.flush]) = .ok (lexer, emitted) ∧
      emitted.map Token.bare = items.map token := by
  obtain ⟨m, ts, hscan, hts, hm⟩ := scans_all items hf hs (fun _ _ => .inl rfl) (.inl rfl)
  change ts ++ m.pending = items.map token at hts
  rw [← hts]
  by_cases hnil : last = []
  · subst hnil
    rw [append_nil]
    exact hscan.flush (hm 0 (by decide))
  · obtain ⟨m', hblank, hspaces⟩ := scans_blank hlast hlen hm (.inr hnil)
    have := (hscan.append hspaces).flush (hblank.endedBy (by decide) rfl)
    rwa [hblank.pending, append_nil] at this

theorem spoils (i : Spaced) (hf : ¬i.Fits) (w : List Byte) :
    Spoils (· ≠ i.token) .start ((i.written ++ w).map .byte ++ [.flush]) := by
  rw [written, append_assoc, map_append, append_assoc]
  by_cases hlen : i.spaces.length ≤ maxTokenSize
  · obtain ⟨m, hblank, hscan⟩ := scans_spaces i.spaces i.blank hlen
    have htext := i.lexeme.spoils (fun hr => hf ⟨hlen, hr⟩) w
    rw [map_append, append_assoc] at htext ⊢
    exact hscan.spoils (i.lexeme.begins.spoils hblank htext)
  · exact (spoils_spaces i.blank (by omega)).mono fun t => i.lexeme.ne_of_odd

/-- Where these tokens are emitted, each one fits. -/
theorem fits_of_lexAll (items : List Spaced) (last : List Byte) (hlast : ∀ b ∈ last, isSpace b = true)
    (hs : ∀ i ∈ items.tail, i.spaces ≠ []) (hm : m.Complete) (hfirst : m = .start ∨ ∀ i ∈ items, i.spaces ≠ [])
    {x y : Int} {lexer : Lexer} {emitted : List Token}
    (hl : lexAll ⟨m.state, m.token, x, y⟩ ((items.flatMap written ++ last).map .byte ++ [.flush]) = .ok (lexer, emitted))
    (hts : emitted.map Token.bare = m.pending ++ items.map token) :
    (∀ i ∈ items, i.Fits) ∧ last.length ≤ maxTokenSize := by
  induction items generalizing m x y emitted with
  | nil =>
    refine ⟨by simp, ?_⟩
    by_contra hlen
    cases last with
    | nil => exact hlen (Nat.zero_le _)
    | cons b last =>
      obtain ⟨more, hmore, hemitted⟩ := lexAll_restart (hm b (mem_ends (hlast b (by simp)))) hl
      obtain ⟨t, ts, hodd, -⟩ := spoils_spaces hlast (by omega) x y lexer more hmore
      rw [hts, hodd] at hemitted
      simp at hemitted
  | cons i items ih =>
    rw [flatMap_cons, append_assoc] at hl
    have hi : m = .start ∨ i.spaces ≠ [] := hfirst.imp_right fun h => h i (by simp)
    by_cases hf : i.Fits
    · obtain ⟨m₁, ts₁, hscan₁, hts₁, hm₁⟩ := i.scans hf hm hi
      rw [map_append, append_assoc] at hl
      obtain ⟨x', y', more, hmore, hemitted⟩ := hscan₁.rest hl
      have hrest : more.map Token.bare = m₁.pending ++ items.map token := by
        rw [hts, map_cons, ← singleton_append, ← append_assoc, ← hts₁, append_assoc] at hemitted
        exact (append_cancel_left hemitted).symm
      obtain ⟨hfits, hlen⟩ := ih (fun j hj => hs j (mem_of_mem_tail hj)) hm₁ (.inr hs) hmore hrest
      exact ⟨by simpa using ⟨hf, hfits⟩, hlen⟩
    · obtain ⟨more, hmore, hemitted⟩ : ∃ more, lexAll ⟨.inStart, [], x, y⟩
          ((i.written ++ (items.flatMap written ++ last)).map .byte ++ [.flush]) = .ok (lexer, more) ∧
          emitted.map Token.bare = m.pending ++ more.map Token.bare := by
        obtain rfl | hne := hi
        · exact ⟨emitted, hl, rfl⟩
        · obtain ⟨b, w, hbw⟩ := exists_cons_of_ne_nil hne
          simp only [written, hbw, cons_append, map_cons] at hl ⊢
          exact lexAll_restart (hm b (mem_ends (i.blank b (by simp [hbw])))) hl
      obtain ⟨t, ts, hmts, hbad⟩ := i.spoils hf _ x y lexer more hmore
      rw [hts, hmts, map_cons] at hemitted
      exact absurd (cons.inj (append_cancel_left hemitted)).1.symm hbad

/-- Tokens of the grammar with white space between them, before and after are read as these
tokens, exactly where each of them fits. -/
theorem lexAll_written_iff (items : List Spaced) (last : List Byte) (hlast : ∀ b ∈ last, isSpace b = true)
    (hs : ∀ i ∈ items.tail, i.spaces ≠ []) :
    (∃ lexer emitted, lexAll .init ((items.flatMap written ++ last).map .byte ++ [.flush]) = .ok (lexer, emitted) ∧
      emitted.map Token.bare = items.map token) ↔ (∀ i ∈ items, i.Fits) ∧ last.length ≤ maxTokenSize := by
  refine ⟨?_, fun ⟨hf, hlen⟩ => reads_all items last hlast hs hf hlen⟩
  rintro ⟨lexer, emitted, hl, hts⟩
  exact fits_of_lexAll (m := .start) items last hlast hs (fun _ _ => .inl rfl) (.inl rfl) hl hts

theorem slash_lexeme {quote : Byte} (hq : quote ∈ [0x22, 0x27]) : Lexeme .string [quote, 0x5C, 0x2F, quote] :=
  (Lexeme.string hq (by simpa using .escape (by decide)) : Lexeme .string (quote :: [[0x5C, 0x2F]].flatten ++ [quote]))

theorem readable_of_bytes (hlen : text.length ≤ maxTokenSize) (hbytes : ∀ b ∈ text, isText b = true)
    (hquote : 0x27 ∉ text.head?) : Readable type text := by
  refine ⟨by split <;> omega, ?_⟩
  rintro - quote parts rfl - - p hp
  refine ⟨fun b hb => hbytes b (by simp only [cons_append, mem_cons, mem_append, mem_flatten]; grind), ?_⟩
  rintro rfl
  simp at hquote

/-- `true "\/" 10` -/
theorem three_written : ∃ lexer emitted,
    lexAll .init ([0x74, 0x72, 0x75, 0x65, 0x20, 0x22, 0x5C, 0x2F, 0x22, 0x20, 0x31, 0x30].map .byte ++ [.flush]) =
      .ok (lexer, emitted) ∧ emitted.map Token.bare = [bareToken .keyword [0x74, 0x72, 0x75, 0x65],
      bareToken .string [0x22, 0x5C, 0x2F, 0x22], bareToken .integer [0x31, 0x30]] :=
  (lexAll_written_iff
    [⟨[], .keyword, [0x74, 0x72, 0x75, 0x65], by simp, .keyword (by decide)⟩,
      ⟨[0x20], .string, [0x22, 0x5C, 0x2F, 0x22], by decide, slash_lexeme (by decide)⟩,
      ⟨[0x20], .integer, [0x31, 0x30], by decide,
        .integer (.inr ⟨[], by simp, 0x31, [0x30], rfl, by decide, by simp, by decide⟩)⟩]
    [] (by simp) (by simp)).mpr ⟨by
      simpa [Fits] using ⟨readable_of_bytes (by decide) (by decide) (by simp),
        ⟨by decide, readable_of_bytes (by decide) (by decide) (by simp)⟩,
        by decide, readable_of_bytes (by decide) (by decide) (by simp)⟩, Nat.zero_le _⟩

/-- `'\/'`: after the escape the closing quote is part of a double quoted string, and the end of
the text is an error. -/
theorem slash_swallows : Lexeme .string [0x27, 0x5C, 0x2F, 0x27] ∧
    lexAll .init ([0x27, 0x5C, 0x2F, 0x27].map .byte ++ [.flush]) =
      .ok (⟨.inStart, [], 5, 0⟩, [⟨.error, [0x27, 0x5C, 0x2F, 0x27], 5, 0⟩]) :=
  ⟨slash_lexeme (by decide), rfl⟩

end Spaced

end Reading

end GemDroid.Json
