import GemDroid.Json.Feed

/-! How the lexer reads a text.

A number, a keyword and white space are pending until the next character is seen, and are
emitted by it. So a piece of text is read from one *mode* of the lexer, a state and the text of
the token so far, to another, and pieces are put together where the first character of one ends
what the other has left pending. -/
namespace GemDroid.Json
open Lib List Except

variable {ch : Byte}

/-! ### Reading text -/

def lexAll (lexer : Lexer) : List Input → Except Fault (Lexer × List Token)
  | [] => .ok (lexer, [])
  | input :: inputs => do
    let (lexer, emitted) ← ({ MessageParser.init with lexer := lexer } : MessageParser).lex input
    let (lexer, more) ← lexAll lexer inputs
    pure (lexer, emitted ++ more)

/-- A lexer, its position in the text apart. -/
structure Mode where
  state : LexState
  token : List Byte

open Mode

def Mode.start : Mode := ⟨.inStart, []⟩

def Token.bare (t : Token) : Token := { t with x := 0, y := 0 }

def bareToken (type : TokenType) (value : List Byte) : Token := ⟨type, value, 0, 0⟩

def Scans (m : Mode) (w : List Byte) (m' : Mode) (ts : List Token) : Prop :=
  ∀ x y, ∃ x' y' emitted, lexAll ⟨m.state, m.token, x, y⟩ (w.map .byte) =
    .ok (⟨m'.state, m'.token, x', y'⟩, emitted) ∧ emitted.map Token.bare = ts

def Mode.pending (m : Mode) : List Token :=
  match jsonLexer 0 m.state with
  | .emit .skip => []
  | .emit type => [bareToken type m.token]
  | _ => []

section Scans
variable {m m' m'' : Mode} {w w' : List Byte} {ts ts' : List Token} {s : LexState}
  {type : TokenType}

theorem lexAll_append (inputs more : List Input) : ∀ lexer, lexAll lexer (inputs ++ more) =
    (lexAll lexer inputs >>= fun r => lexAll r.1 more >>= fun r' => pure (r'.1, r.2 ++ r'.2)) := by
  induction inputs with
  | nil =>
    intro lexer
    rw [nil_append, lexAll, ok_bind]
    cases lexAll lexer more <;> rfl
  | cons input inputs ih =>
    intro lexer
    rw [cons_append, lexAll, lexAll]
    cases MessageParser.lex _ input with
    | error e => rfl
    | ok r =>
      obtain ⟨lexer', emitted⟩ := r
      rw [ok_bind, ok_bind]
      dsimp only
      rw [ih]
      cases lexAll lexer' inputs with
      | error e => rfl
      | ok r' =>
        rw [ok_bind, ok_bind]
        show _ = (lexAll r'.1 more >>= _)
        cases lexAll r'.1 more with
        | error e => rfl
        | ok r'' =>
          show ok (r''.1, emitted ++ (r'.2 ++ r''.2)) = ok (r''.1, emitted ++ r'.2 ++ r''.2)
          rw [append_assoc]

theorem Scans.nil (m : Mode) : Scans m [] m [] := fun x y => ⟨x, y, [], rfl, rfl⟩

theorem Scans.append (h : Scans m w m' ts) (h' : Scans m' w' m'' ts') : Scans m (w ++ w') m'' (ts ++ ts') := by
  intro x y
  obtain ⟨x₁, y₁, e₁, hl₁, rfl⟩ := h x y
  obtain ⟨x₂, y₂, e₂, hl₂, rfl⟩ := h' x₁ y₁
  refine ⟨x₂, y₂, e₁ ++ e₂, ?_, map_append⟩
  rw [map_append, lexAll_append, hl₁, ok_bind, hl₂]
  rfl

def Lexer.moved (lexer : Lexer) (ch : Byte) : Lexer :=
  if ch = 0x0A then { lexer with x := 0, y := lexer.y + 1 } else { lexer with x := lexer.x + 1 }

variable (lexer : Lexer)

theorem Lexer.moved_eq (ch : Byte) : ∃ x y, lexer.moved ch = ⟨lexer.state, lexer.token, x, y⟩ := by
  unfold Lexer.moved
  split
  · exact ⟨_, _, rfl⟩
  · exact ⟨_, _, rfl⟩

theorem lexAll_byte (ch : Byte) : lexAll lexer [.byte ch] = lexer.feedChar ch false := by
  show (lexer.feedChar ch false >>= _) = _
  cases lexer.feedChar ch false with
  | error e => rfl
  | ok r =>
    rw [ok_bind]
    show ok (r.1, r.2 ++ []) = _
    rw [append_nil]

theorem feedChar_of_feedLoop {lexer lexer' : Lexer} {flush : Bool} {emitted : List Token}
    (h : (lexer.moved ch).feedLoop ch flush 2 = .ok (lexer', emitted, false))
    (hlen : lexer'.token.length ≤ maxTokenSize) : lexer.feedChar ch flush = .ok (lexer', emitted) := by
  rw [Lexer.feedChar]
  unfold Lexer.moved at h
  rw [h, ok_bind]
  dsimp only
  rw [if_neg (by simp), if_neg (by omega)]
  rfl

theorem Scans.take (h : jsonLexer ch m.state = .state s) (hlen : m.token.length < maxTokenSize) :
    Scans m [ch] ⟨s, m.token ++ [ch]⟩ [] := by
  intro x y
  obtain ⟨x', y', hm⟩ := Lexer.moved_eq ⟨m.state, m.token, x, y⟩ ch
  refine ⟨x', y', [], ?_, rfl⟩
  rw [map_singleton, lexAll_byte]
  apply feedChar_of_feedLoop
  · have hl : neededLookahead m.state (.state s) = false := by
      simpa [neededLookahead] using jsonLexer_zero m.state s
    rw [hm, Lexer.feedLoop]
    simp [h, hl]
  · simp only [length_append, length_singleton]
    omega

theorem Scans.close (h : jsonLexer ch m.state = .emit type) (hl : jsonLexer 0 m.state ≠ .emit type)
    (ht : type ≠ .skip) : Scans m [ch] .start [bareToken type (m.token ++ [ch])] := by
  intro x y
  obtain ⟨x', y', hm⟩ := Lexer.moved_eq ⟨m.state, m.token, x, y⟩ ch
  refine ⟨x', y', [⟨type, m.token ++ [ch], x', y'⟩], ?_, rfl⟩
  rw [map_singleton, lexAll_byte]
  apply feedChar_of_feedLoop
  · have hl : neededLookahead m.state (.emit type) = false := by
      simpa [neededLookahead] using hl
    rw [hm, Lexer.feedLoop]
    simp [h, hl, ht, Lexer.restart, Lexer.tokenOf, start]
  · exact Nat.zero_le _

theorem feedLoop_start_eq (h : lexer.state = .inStart) (flush : Bool) :
    lexer.feedLoop ch flush 2 = lexer.feedLoop ch flush 1 := by
  cases hnew : jsonLexer ch .inStart with
  | inError => simp [Lexer.feedLoop, h, hnew]
  | emit type | state s => simp [Lexer.feedLoop, h, hnew, neededLookahead, jsonLexer_zero_start]

/-- A character that is not part of the token is read after it, from the start state. -/
theorem feedChar_lookahead (h : jsonLexer ch lexer.state = .emit type)
    (hzero : jsonLexer 0 lexer.state = .emit type) : ∃ x y, lexer.feedChar ch false =
      (lexer.restart.feedChar ch false >>= fun r =>
        pure (r.1, (if type = .skip then [] else [⟨type, lexer.token, x, y⟩]) ++ r.2)) := by
  obtain ⟨x, y, hm⟩ := Lexer.moved_eq lexer ch
  have hm' : lexer.restart.moved ch = ⟨.inStart, [], x, y⟩ := by
    have hr : lexer.restart.moved ch = (lexer.moved ch).restart := by
      unfold Lexer.moved
      split
      · rfl
      · rfl
    rw [hr, hm]
    rfl
  refine ⟨x, y, ?_⟩
  have hl : neededLookahead lexer.state (.emit type) = true := by
    simpa [neededLookahead] using hzero
  -- the first round of the loop emits the token, the second reads the character
  have hloop : (lexer.moved ch).feedLoop ch false 2 = ((lexer.restart.moved ch).feedLoop ch false 2 >>= fun r =>
        pure (r.1, (if type = .skip then [] else [⟨type, lexer.token, x, y⟩]) ++ r.2.1, r.2.2)) := by
    rw [hm', hm, feedLoop_start_eq ⟨.inStart, [], x, y⟩ rfl, Lexer.feedLoop]
    simp [h, hl, Lexer.restart, Lexer.tokenOf]
  unfold Lexer.moved at hloop
  rw [Lexer.feedChar, Lexer.feedChar]
  rw [hloop]
  cases Lexer.feedLoop ch false 2 _ with
  | error e => rfl
  | ok r =>
    obtain ⟨lexer', emitted, returned⟩ := r
    simp only [ok_bind, pure, Except.pure]
    split
    · rfl
    · split
      · simp [ok_bind]
      · rfl

theorem Mode.pending_eq (h : jsonLexer 0 m.state = .emit type) (x y : Int) :
    m.pending = (if type = .skip then [] else [⟨type, m.token, x, y⟩]).map Token.bare := by
  rw [pending, h]
  cases type <;> rfl

/-- The character ends what is pending and is then read from the start state. -/
def Mode.EndedBy (m : Mode) (ch : Byte) : Prop :=
  m = .start ∨ ∃ type, jsonLexer ch m.state = .emit type ∧ jsonLexer 0 m.state = .emit type

/-- A text whose first character ends what is pending is read as from the start. -/
theorem Scans.restart (he : m.EndedBy ch) (h : Scans .start (ch :: w) m' ts) :
    Scans m (ch :: w) m' (m.pending ++ ts) := by
  obtain rfl | ⟨type, hty, hzero⟩ := he
  · exact h
  intro x y
  obtain ⟨x', y', emitted, hl, rfl⟩ := h x y
  obtain ⟨x₁, y₁, hfeed⟩ := feedChar_lookahead ⟨m.state, m.token, x, y⟩ hty hzero
  refine ⟨x', y', (if type = .skip then [] else [⟨type, m.token, x₁, y₁⟩]) ++ emitted, ?_, ?_⟩
  · rw [← singleton_append, map_append, map_singleton, lexAll_append, lexAll_byte] at hl ⊢
    rw [hfeed]
    change (Lexer.feedChar ch false ⟨.inStart, [], x, y⟩ >>= _) = _ at hl
    change ((Lexer.feedChar ch false ⟨.inStart, [], x, y⟩ >>= _) >>= _) = _
    obtain ⟨r, hr, hl⟩ := exists_ok_of_bind hl
    obtain ⟨r', hw, hl⟩ := exists_ok_of_bind hl
    rw [hr, ok_bind, show ∀ a, (pure a : Except Fault (Lexer × List Token)) = .ok a from fun _ => rfl, ok_bind]
    rw [hw, ok_bind]
    obtain ⟨hlexer, rfl⟩ := Prod.mk.inj (ok.inj hl)
    show ok (r'.1, _ ++ r.2 ++ r'.2) = ok (_, _ ++ (r.2 ++ r'.2))
    rw [append_assoc, hlexer]
  · rw [map_append, pending_eq hzero x₁ y₁]

/-- The state in which a text leaves the lexer, if every character goes on with the token. -/
def walk (state : LexState) : List Byte → Option LexState
  | [] => some state
  | ch :: w =>
    match jsonLexer ch state with
    | .state s => walk s w
    | _ => none

theorem walk_append (w w' : List Byte) : ∀ state, walk state (w ++ w') = (walk state w).bind fun s => walk s w' := by
  induction w with
  | nil => exact fun state => rfl
  | cons ch w ih =>
    intro state
    rw [cons_append, walk, walk]
    split
    · exact ih _
    · rfl

theorem walk_loop (w : List Byte) (h : ∀ b ∈ w, jsonLexer b s = .state s) : walk s w = some s := by
  induction w with
  | nil => rfl
  | cons b w ih =>
    rw [walk, h b (by simp)]
    exact ih fun c hc => h c (by simp [hc])

theorem walk_flatten (ws : List (List Byte)) (h : ∀ w ∈ ws, walk s w = some s) : walk s ws.flatten = some s := by
  induction ws with
  | nil => rfl
  | cons w ws ih =>
    rw [flatten_cons, walk_append, h w (by simp)]
    exact ih fun c hc => h c (by simp [hc])

theorem Scans.walk (w : List Byte) : ∀ state token, walk state w = some s →
    token.length + w.length ≤ maxTokenSize → Scans ⟨state, token⟩ w ⟨s, token ++ w⟩ [] := by
  induction w with
  | nil =>
    intro state token h _
    cases h
    rw [append_nil]
    exact .nil _
  | cons ch w ih =>
    intro state token h hlen
    rw [Json.walk] at h
    rw [length_cons] at hlen
    cases hnew : jsonLexer ch state with
    | inError => simp [hnew] at h
    | emit type => simp [hnew] at h
    | state s' =>
      rw [hnew] at h
      have hch : Scans ⟨state, token⟩ [ch] ⟨s', token ++ [ch]⟩ [] :=
        .take hnew (show token.length < _ by omega)
      have hw := ih s' (token ++ [ch]) h (by rw [length_append, length_singleton]; omega)
      rw [append_assoc] at hw
      exact hch.append hw

end Scans

open Lexer

/-! ### Numbers and white space -/

section Texts

theorem walk_digits (ds : List Byte) (h : ∀ d ∈ ds, isDigit d = true) :
    walk .inNonzeroNumber ds = some .inNonzeroNumber :=
  walk_loop ds fun d hd => by simp [jsonLexer, h d hd]

theorem walk_number {sign ds : List Byte} {d : Byte} (hs : sign ∈ [[], [0x2D]]) (hd : isDigit d = true)
    (hne : d ≠ 0x30) (hds : ∀ b ∈ ds, isDigit b = true) :
    walk .inStart (sign ++ d :: ds) = some .inNonzeroNumber := by
  have hquote : d ≠ 0x22 ∧ d ≠ 0x27 := by
    simp only [isDigit, decide_eq_true_eq] at hd
    exact ⟨by rintro rfl; simp at hd, by rintro rfl; simp at hd⟩
  simp only [mem_cons, not_mem_nil, or_false] at hs
  obtain rfl | rfl := hs
  · simp only [nil_append, walk, jsonLexer, hd, hne, hquote, if_true, if_false]
    exact walk_digits ds hds
  · simp only [cons_append, nil_append, walk, jsonLexer, hd, hne, if_true, if_false]
    exact walk_digits ds hds

theorem walk_spaces (w : List Byte) (h : ∀ b ∈ w, isSpace b = true) : walk .inWhitespace w = some .inWhitespace :=
  walk_loop w fun b hb => by simp [jsonLexer, h b hb]

/-! ### Between tokens -/

def Mode.Blank (m : Mode) : Prop := m = .start ∨ m.state = .inWhitespace

variable {m m' : Mode} {w : List Byte} {ts : List Token}

theorem Mode.Blank.endedBy (h : m.Blank) (hascii : ch ≤ 0x7F) (hch : isSpace ch = false) : m.EndedBy ch := by
  obtain h | h := h
  · exact .inl h
  · exact .inr ⟨.skip, by rw [h]; simp [jsonLexer, hch, terminal, hascii], by rw [h]; rfl⟩

theorem Mode.Blank.pending (h : m.Blank) : m.pending = [] := by
  obtain rfl | h := h
  · rfl
  · rw [Mode.pending, h]
    rfl

theorem jsonLexer_space (h : isSpace ch = true) : jsonLexer ch .inStart = .state .inWhitespace := by
  simp only [isSpace, decide_eq_true_eq] at h
  obtain rfl | rfl | rfl | rfl := h <;> rfl

theorem scans_spaces (w : List Byte) (h : ∀ b ∈ w, isSpace b = true) (hlen : w.length ≤ maxTokenSize) :
    ∃ m : Mode, m.Blank ∧ Scans .start w m [] := by
  cases w with
  | nil => exact ⟨.start, .inl rfl, .nil _⟩
  | cons b w =>
    refine ⟨⟨.inWhitespace, b :: w⟩, .inr rfl, .walk (b :: w) .inStart [] ?_ (by simpa using hlen)⟩
    rw [walk, jsonLexer_space (h b (by simp))]
    exact walk_spaces w fun c hc => h c (by simp [hc])

theorem scans_operator (op : Byte) (h : op ∈ [0x7B, 0x7D, 0x5B, 0x5D, 0x2C, 0x3A]) :
    Scans .start [op] .start [bareToken .operator [op]] := by
  have hop : ∀ op ∈ [0x7B, 0x7D, 0x5B, 0x5D, 0x2C, 0x3A], jsonLexer op .inStart = .emit .operator := by
    decide
  exact .close (hop op h) (by decide) (by decide)

theorem lexAll_flush (h : m.EndedBy 0) (x y : Int) : ∃ lexer emitted,
    lexAll ⟨m.state, m.token, x, y⟩ [.flush] = .ok (lexer, emitted) ∧ emitted.map Token.bare = m.pending := by
  obtain rfl | ⟨type, hzero, -⟩ := h
  · exact ⟨⟨.inStart, [], x, y⟩, [], rfl, rfl⟩
  have hl : neededLookahead m.state (.emit type) = true := by
    simpa [neededLookahead] using hzero
  have hfeed : feedChar 0 true ⟨m.state, m.token, x, y⟩ =
      .ok (⟨.inStart, [], x + 1, y⟩, if type = .skip then [] else [⟨type, m.token, x + 1, y⟩]) := by
    apply feedChar_of_feedLoop
    · show feedLoop 0 true 2 ⟨m.state, m.token, x + 1, y⟩ = _
      rw [feedLoop]
      simp [hzero, hl, restart, tokenOf]
    · exact Nat.zero_le _
  have hstart : m.state ≠ .inStart := by
    intro he
    rw [he, jsonLexer_zero_start] at hzero
    cases hzero
  refine ⟨⟨.inStart, [], x + 1, y⟩, _, ?_, (pending_eq hzero (x + 1) y).symm⟩
  show (flush ⟨m.state, m.token, x, y⟩ >>= _) = _
  rw [flush, if_neg hstart, hfeed, ok_bind]
  show ok (_, _ ++ []) = _
  rw [append_nil]

theorem Scans.flush {w : List Byte} {ts : List Token} (h : Scans .start w m ts) (he : m.EndedBy 0) :
    ∃ lexer emitted, lexAll .init (w.map .byte ++ [.flush]) = .ok (lexer, emitted) ∧
      emitted.map Token.bare = ts ++ m.pending := by
  obtain ⟨x, y, emitted, hlex, rfl⟩ := h 0 0
  obtain ⟨lexer, last, hflush, hlast⟩ := lexAll_flush he x y
  refine ⟨lexer, emitted ++ last, ?_, by rw [map_append, hlast]⟩
  rw [lexAll_append]
  show (lexAll ⟨start.state, start.token, 0, 0⟩ _ >>= _) = _
  rw [hlex, ok_bind, hflush]
  rfl

/-- A text that begins with an ASCII character other than white space. -/
def Begins (w : List Byte) : Prop := ∃ ch w', w = ch :: w' ∧ ch ≤ 0x7F ∧ isSpace ch = false

theorem Begins.scans (hw : Begins w) (hm : m.Blank) (h : Scans .start w m' ts) : Scans m w m' ts := by
  obtain ⟨ch, w', rfl, hascii, hch⟩ := hw
  have := h.restart (hm.endedBy hascii hch)
  rwa [hm.pending] at this

theorem begins_cons (h : isDigit ch = true ∨ isLower ch = true) : Begins (ch :: w) := by
  simp only [isDigit, isLower, decide_eq_true_eq, Byte] at h
  refine ⟨ch, w, rfl, by dsimp only [Byte]; omega, ?_⟩
  simp only [isSpace, decide_eq_false_iff_not, Byte]
  omega

end Texts

end GemDroid.Json
