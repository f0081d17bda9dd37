import GemDroid.Json.CutShort

/-! Feeding bytes to the message parser.

The lexer always ends. The streamer's counts are those of the tokens it has collected, and a
list that is cut short has a brace or a bracket open and none closed too much. So the lists on
which the parser fails its assertion are handed over for one reason only, that a limit is
exceeded. -/
namespace GemDroid.Json
open Lib List Option MessageParser

/-! ### The lexer -/

section Lexer
variable {ch : Byte} {flush : Bool} {lexer : Lexer}

theorem jsonLexer_zero (old s : LexState) : jsonLexer 0 old ≠ .state s := by
  cases old <;> simp [jsonLexer, ucode, terminal, isXdigit, isDigit, isText, isLower, isSpace]

theorem jsonLexer_zero_start : jsonLexer 0 .inStart = .inError := by decide

theorem feedLoop_start (fuel : Nat) (h : lexer.state = .inStart) : ∃ r, lexer.feedLoop ch flush (fuel + 1) = .ok r := by
  rw [Lexer.feedLoop, h]
  cases hnew : jsonLexer ch .inStart with
  | inError => exact ⟨_, rfl⟩
  | emit type | state s => simp [neededLookahead, jsonLexer_zero_start]

/-- A character is looked at twice at most. -/
theorem feedLoop_ok (ch : Byte) (flush : Bool) (lexer : Lexer) : ∃ r, lexer.feedLoop ch flush 2 = .ok r := by
  rw [Lexer.feedLoop]
  cases hnew : jsonLexer ch lexer.state with
  | inError => exact ⟨_, rfl⟩
  | emit type =>
    dsimp only
    split
    · exact ⟨_, rfl⟩
    · obtain ⟨r, hr⟩ : ∃ r, (Lexer.restart _).feedLoop ch flush 1 = .ok r := feedLoop_start 0 rfl
      rw [hr, ok_bind]
      exact ⟨_, rfl⟩
  | state s =>
    have hl : neededLookahead lexer.state (.state s) = false := by
      simpa [neededLookahead] using jsonLexer_zero lexer.state s
    simp [hl]

theorem feedChar_ok (lexer : Lexer) : ∃ r, lexer.feedChar ch flush = .ok r := by
  rw [Lexer.feedChar]
  obtain ⟨⟨lexer', emitted, returned⟩, hr⟩ := feedLoop_ok ch flush
    (if ch = 0x0A then { lexer with x := 0, y := lexer.y + 1 } else { lexer with x := lexer.x + 1 })
  rw [hr, ok_bind]
  dsimp only
  split
  · exact ⟨_, rfl⟩
  · split
    · exact ⟨_, rfl⟩
    · exact ⟨_, rfl⟩

theorem lex_ok (parser : MessageParser) (input : Input) : ∃ r, parser.lex input = .ok r := by
  cases input with
  | byte ch => exact feedChar_ok _
  | flush =>
    rw [MessageParser.lex, Lexer.flush]
    split
    · exact ⟨_, rfl⟩
    · exact feedChar_ok _

end Lexer

/-! ### Open braces and brackets -/

def braces (tokens : List Token) : Int := (tokens.map braceStep).sum

def brackets (tokens : List Token) : Int := (tokens.map bracketStep).sum

def textSize (tokens : List Token) : Nat := (tokens.map fun t => t.value.length).sum

def OverLimit (tokens : List Token) : Prop :=
  textSize tokens > maxTokenSize ∨ brackets tokens > maxNesting ∨ braces tokens > maxNesting

def objectFrame (s : Sym) : Bool := decide (s = .objectFirst ∨ s = .objectNext)

/-- A symbol that stands for an open bracket. -/
def arrayFrame (s : Sym) : Bool := decide (s = .arrayFirst ∨ s = .arrayNext)

section Counts
variable {s : Sym} {k l : List Sym} {t : Token} {ts : List Token} {op : Byte}

theorem braceStep_operator (h : tokenIsOperator t op = true) :
    braceStep t = if op = 0x7B then 1 else if op = 0x7D then -1 else 0 := by
  simp only [tokenIsOperator, decide_eq_true_eq] at h
  simp [braceStep, h.1, h.2]

theorem bracketStep_operator (h : tokenIsOperator t op = true) :
    bracketStep t = if op = 0x5B then 1 else if op = 0x5D then -1 else 0 := by
  simp only [tokenIsOperator, decide_eq_true_eq] at h
  simp [bracketStep, h.1, h.2]

theorem steps_scalar (h : isScalar t = true) : braceStep t = 0 ∧ bracketStep t = 0 := by
  have := isScalar_type h
  simp [braceStep, bracketStep, this]

def objectFrames (k : List Sym) : Int := k.countP objectFrame
def arrayFrames (k : List Sym) : Int := k.countP arrayFrame

/-- What a token changes: the frames are those of the braces and brackets that are open. -/
structure Counts (old new : List Sym) (t : Token) : Prop where
  objects : objectFrames new = objectFrames old + braceStep t
  arrays : arrayFrames new = arrayFrames old + bracketStep t

theorem Counts.append (h : Counts k l t) (k' : List Sym) : Counts (k ++ k') (l ++ k') t := by
  constructor
  · have := h.objects
    simp only [objectFrames, countP_append, Int.natCast_add] at this ⊢
    omega
  · have := h.arrays
    simp only [arrayFrames, countP_append, Int.natCast_add] at this ⊢
    omega

theorem Counts.congr {k' : List Sym} (h : Counts k l t) (ho : objectFrames k' = objectFrames k)
    (ha : arrayFrames k' = arrayFrames k) : Counts k' l t :=
  ⟨ho ▸ h.objects, ha ▸ h.arrays⟩

theorem counts_value (h : valueStep t = some l) : Counts [] l t := by
  unfold valueStep at h
  split at h
  next hb =>
    cases h
    constructor
    · simp [objectFrames, objectFrame, braceStep_operator hb]
    · simp [arrayFrames, arrayFrame, bracketStep_operator hb]
  next hb =>
    split at h
    next hk =>
      cases h
      constructor
      · simp [objectFrames, objectFrame, braceStep_operator hk]
      · simp [arrayFrames, arrayFrame, bracketStep_operator hk]
    next hk =>
      split at h
      next hs =>
        cases h
        obtain ⟨h₁, h₂⟩ := steps_scalar hs
        constructor
        · simp [objectFrames, h₁]
        · simp [arrayFrames, h₂]
      next hs => cases h

theorem counts_key (h : keyStep t = some l) : Counts [] l t := by
  unfold keyStep at h
  split at h
  next hs =>
    cases h
    have hsc : isScalar t = true := by
      unfold isString at hs
      split at hs
      next hv => simp [isScalar, hv]
      next => cases hs
    obtain ⟨h₁, h₂⟩ := steps_scalar hsc
    constructor
    · simp [objectFrames, h₁]
    · simp [arrayFrames, h₂]
  next hs =>
    obtain ⟨l', hl, rfl⟩ := map_eq_some_iff.1 h
    exact ((counts_value hl).append [.notKey]).congr rfl rfl

theorem counts_operator {l₀ : List Sym} {r : Option (List Sym)}
    (h : (if tokenIsOperator t op = true then some l₀ else r) = some l)
    (ho : objectFrames l₀ = objectFrames k + if op = 0x7B then 1 else if op = 0x7D then -1 else 0)
    (ha : arrayFrames l₀ = arrayFrames k + if op = 0x5B then 1 else if op = 0x5D then -1 else 0)
    (hr : r = some l → Counts k l t) : Counts k l t := by
  split at h
  next hc =>
    cases h
    exact ⟨by rw [ho, braceStep_operator hc], by rw [ha, bracketStep_operator hc]⟩
  next => exact hr h

theorem counts_step (h : symStep s t = some l) : Counts [s] l t := by
  cases s with
  | value => exact (counts_value h).congr rfl rfl
  | arrayFirst =>
    refine counts_operator h (by decide) (by decide) fun h => ?_
    obtain ⟨l', hl, rfl⟩ := map_eq_some_iff.1 h
    exact ((counts_value hl).append [.arrayNext]).congr rfl rfl
  | arrayNext | objectNext =>
    refine counts_operator h (by decide) (by decide) fun h => ?_
    exact counts_operator h (by decide) (by decide) nofun
  | objectFirst =>
    refine counts_operator h (by decide) (by decide) fun h => ?_
    obtain ⟨l', hl, rfl⟩ := map_eq_some_iff.1 h
    exact ((counts_key hl).append [.colon, .value, .objectNext]).congr rfl rfl
  | key => exact (counts_key h).congr rfl rfl
  | colon => exact counts_operator h (by decide) (by decide) nofun
  | notKey => cases h

/-- At the bottom of the stack is a frame. -/
def Framed (k : List Sym) : Prop := ∃ init s, k = init ++ [s] ∧ (objectFrame s || arrayFrame s) = true

theorem Framed.append (h : Framed k) (l : List Sym) : Framed (l ++ k) := by
  obtain ⟨init, s, rfl, hs⟩ := h
  exact ⟨l ++ init, s, by simp, hs⟩

theorem framed_step (hs : (objectFrame s || arrayFrame s) = true) (h : symStep s t = some l) : l = [] ∨ Framed l := by
  cases s with
  | arrayFirst =>
    simp only [symStep] at h
    split at h
    · exact .inl (by simpa using h.symm)
    · obtain ⟨l', hl, rfl⟩ := map_eq_some_iff.1 h
      exact .inr ⟨l', .arrayNext, rfl, rfl⟩
  | arrayNext =>
    simp only [symStep] at h
    split at h
    · exact .inl (by simpa using h.symm)
    · split at h
      · cases h
        exact .inr ⟨[.value], .arrayNext, rfl, rfl⟩
      · cases h
  | objectFirst =>
    simp only [symStep] at h
    split at h
    · exact .inl (by simpa using h.symm)
    · obtain ⟨l', hl, rfl⟩ := map_eq_some_iff.1 h
      exact .inr ⟨l' ++ [.colon, .value], .objectNext, by simp, rfl⟩
  | objectNext =>
    simp only [symStep] at h
    split at h
    · exact .inl (by simpa using h.symm)
    · split at h
      · cases h
        exact .inr ⟨[.key, .colon, .value], .objectNext, rfl, rfl⟩
      · cases h
  | _ => cases hs

/-- While something is wanted, the frames on the stack are the braces and brackets open. -/
theorem scan_more (ts : List Token) : ∀ k, Framed k → scan k ts = .more → ∃ k', Framed k' ∧
    objectFrames k' = objectFrames k + braces ts ∧ arrayFrames k' = arrayFrames k + brackets ts := by
  induction ts with
  | nil => exact fun k hk _ => ⟨k, hk, by simp [braces], by simp [brackets]⟩
  | cons t ts ih =>
    intro k hk hm
    obtain ⟨init, s₀, hbottom, hs₀⟩ := id hk
    match k, hm with
    | s :: k, hm =>
      cases hstep : symStep s t with
      | none =>
        rw [scan_cons_none hstep] at hm
        cases hm
      | some l =>
        rw [scan_cons_some hstep] at hm
        have hfr : Framed (l ++ k) := by
          cases init with
          | nil =>
            obtain ⟨rfl, rfl⟩ : s = s₀ ∧ k = [] := by simpa using hbottom
            rcases framed_step hs₀ hstep with rfl | hl
            · simp [scan] at hm
            · simpa using hl
          | cons a init =>
            obtain ⟨rfl, rfl⟩ : s = a ∧ k = init ++ [s₀] := by simpa using hbottom
            exact Framed.append ⟨init, s₀, rfl, hs₀⟩ l
        obtain ⟨k', hk', ho, ha⟩ := ih _ hfr hm
        have hc := (counts_step hstep).append k
        refine ⟨k', hk', ?_, ?_⟩
        · rw [ho, hc.objects]
          simp only [braces, map_cons, sum_cons, singleton_append]
          omega
        · rw [ha, hc.arrays]
          simp only [brackets, map_cons, sum_cons, singleton_append]
          omega

/-- A list that is cut short leaves something open, and closes nothing too much. -/
theorem CutShort.open (h : CutShort ts) (hne : ts ≠ []) :
    0 ≤ braces ts ∧ 0 ≤ brackets ts ∧ 0 < braces ts + brackets ts := by
  obtain ⟨t, ts, rfl⟩ := exists_cons_of_ne_nil hne
  unfold CutShort at h
  cases hstep : symStep .value t with
  | none =>
    rw [scan_cons_none hstep] at h
    cases h
  | some l =>
    rw [scan_cons_some hstep, append_nil] at h
    have hl : Framed l := by
      simp only [symStep, valueStep] at hstep
      split at hstep
      · cases hstep
        exact ⟨[], .objectFirst, rfl, rfl⟩
      split at hstep
      · cases hstep
        exact ⟨[], .arrayFirst, rfl, rfl⟩
      · split at hstep
        · cases hstep
          simp [scan] at h
        · cases hstep
    obtain ⟨k', ⟨init, s, rfl, hs⟩, ho, ha⟩ := scan_more ts l hl h
    have hc := counts_step hstep
    have h₁ := hc.objects
    have h₂ := hc.arrays
    have hpos : 0 < objectFrames (init ++ [s]) + arrayFrames (init ++ [s]) := by
      simp only [objectFrames, arrayFrames, countP_append, countP_singleton]
      rcases Bool.or_eq_true _ _ ▸ hs with hs | hs <;> simp [hs] <;> omega
    have hobj : 0 ≤ objectFrames (init ++ [s]) := Int.natCast_nonneg _
    have harr : 0 ≤ arrayFrames (init ++ [s]) := Int.natCast_nonneg _
    have hz₁ : objectFrames [.value] = 0 := rfl
    have hz₂ : arrayFrames [.value] = 0 := rfl
    simp only [braces, brackets, map_cons, sum_cons] at ho ha ⊢
    omega

end Counts

/-! ### The streamer -/

structure Collected (parser : MessageParser) : Prop where
  braces : parser.braceCount = braces parser.tokens
  brackets : parser.bracketCount = brackets parser.tokens
  size : parser.tokenSize = textSize parser.tokens

/-- A list is handed over when brackets balance or close too much, or a limit is exceeded. -/
structure Handed (tokens : List Token) : Prop where
  nonempty : tokens ≠ []
  reason : (braces tokens < 0 ∨ brackets tokens < 0 ∨ (braces tokens = 0 ∧ brackets tokens = 0)) ∨ OverLimit tokens

section Streamer
variable {parser : MessageParser} {n : Nat}

theorem Collected.reset : Collected parser.reset := ⟨rfl, rfl, rfl⟩

theorem Collected.collect (h : Collected parser) (token : Token) : Collected (parser.collect token) := by
  constructor
  · simp [MessageParser.collect, h.braces, Json.braces]
  · simp [MessageParser.collect, h.brackets, Json.brackets]
  · simp [MessageParser.collect, h.size, textSize]

theorem Collected.processToken (h : Collected parser) (token : Token) : Collected (parser.processToken token).1 ∧
      ∀ tokens, some tokens ∈ (parser.processToken token).2 → Handed tokens := by
  have hc := h.collect token
  have hne : (parser.collect token).tokens ≠ [] := by simp [MessageParser.collect]
  unfold MessageParser.processToken
  dsimp only
  split
  · exact ⟨Collected.reset, by simp⟩
  split
  next hclosed =>
    refine ⟨Collected.reset, fun tokens ht => ?_⟩
    obtain rfl : tokens = (parser.collect token).tokens := by simpa using ht
    refine ⟨hne, .inl ?_⟩
    rw [← hc.braces, ← hc.brackets]
    simpa [closed] using hclosed
  next =>
    split
    next hexceeds =>
      refine ⟨Collected.reset, fun tokens ht => ?_⟩
      obtain rfl : tokens = (parser.collect token).tokens := by simpa using ht
      refine ⟨hne, .inr ?_⟩
      unfold OverLimit
      rw [← hc.braces, ← hc.brackets, ← hc.size]
      simpa [exceeds] using hexceeds
    next => exact ⟨hc, by simp⟩

theorem Collected.processTokens (tokens : List Token) : ∀ {parser : MessageParser}, Collected parser →
    Collected (parser.processTokens tokens).1 ∧ ∀ list, some list ∈ (parser.processTokens tokens).2 → Handed list := by
  induction tokens with
  | nil => exact fun h => ⟨h, by simp [MessageParser.processTokens]⟩
  | cons token tokens ih =>
    intro parser h
    obtain ⟨h₁, hl₁⟩ := h.processToken token
    obtain ⟨h₂, hl₂⟩ := ih h₁
    refine ⟨h₂, fun list hm => ?_⟩
    rcases mem_append.1 hm with hm | hm
    · exact hl₁ list hm
    · exact hl₂ list hm

theorem Collected.step (h : Collected parser) (input : Input) : ∃ parser' lists,
    parser.step input = .ok (parser', lists) ∧ Collected parser' ∧ ∀ list, some list ∈ lists → Handed list := by
  obtain ⟨⟨lexer, tokens⟩, hl⟩ := lex_ok parser input
  have h' : Collected { parser with lexer := lexer } := ⟨h.braces, h.brackets, h.size⟩
  obtain ⟨h₁, h₂⟩ := Collected.processTokens tokens h'
  refine ⟨_, _, ?_, h₁, h₂⟩
  rw [MessageParser.step, hl]
  rfl

theorem Collected.messages (inputs : List Input) : ∀ {parser : MessageParser}, Collected parser →
    ∃ parser' lists, parser.messages inputs = .ok (parser', lists) ∧ (∀ list, some list ∈ lists → Handed list) ∧
      parser.feed inputs = (lists.mapM jsonParserParse >>= fun objects => pure (parser', objects)) := by
  induction inputs with
  | nil => exact fun h => ⟨_, [], rfl, by simp, rfl⟩
  | cons input inputs ih =>
    intro parser h
    obtain ⟨parser₁, lists₁, hs, hc, hl₁⟩ := h.step input
    obtain ⟨parser₂, lists₂, hm, hl₂, hf⟩ := ih hc
    refine ⟨parser₂, lists₁ ++ lists₂, ?_, ?_, ?_⟩
    · rw [MessageParser.messages, hs, ok_bind]
      dsimp only
      rw [hm]
      rfl
    · intro list hlist
      rcases mem_append.1 hlist with hlist | hlist
      · exact hl₁ list hlist
      · exact hl₂ list hlist
    · rw [feed, hs, ok_bind, mapM_append]
      simp [hf]

theorem Handed.parse {tokens : List Token} (h : Handed tokens) :
    (∃ r, jsonParserParse (some tokens) = .ok r) ∧ (OverLimit tokens → ¬ CutShort tokens) ∨
      jsonParserParse (some tokens) = .error .assertion ∧ OverLimit tokens ∧ CutShort tokens := by
  rcases jsonParserParse_spec tokens h.nonempty with ⟨hr, hc⟩ | ⟨hr, hc⟩
  · exact .inl ⟨hr, fun _ => hc⟩
  have ho := hc.open h.nonempty
  refine .inr ⟨hr, ?_, hc⟩
  rcases h.reason with hx | hx
  · omega
  · exact hx

/-- Feeding never runs on, and no assertion fails unless a list that exceeds a limit is cut
short. -/
theorem feed_ok_iff (inputs : List Input) : ∃ parser lists, init.messages inputs = .ok (parser, lists) ∧
    init.feed inputs ≠ .error .endless ∧ ((∃ r, init.feed inputs = .ok r) ↔
      ∀ tokens, some tokens ∈ lists → OverLimit tokens → ¬ CutShort tokens) := by
  have hinit : Collected init := ⟨rfl, rfl, rfl⟩
  obtain ⟨parser, lists, hm, hh, hf⟩ := Collected.messages inputs hinit
  refine ⟨parser, lists, hm, ?_, ?_⟩
  · intro he
    rw [hf] at he
    cases hp : lists.mapM jsonParserParse with
    | ok objects =>
      rw [hp] at he
      cases he
    | error e =>
      rw [hp, error_bind] at he
      cases he
      obtain ⟨list, hl, hbad⟩ := exists_of_mapM_error lists hp
      cases list with
      | none => cases hbad
      | some tokens =>
        rcases (hh tokens hl).parse with ⟨⟨r, hr⟩, -⟩ | ⟨hr, -⟩
        all_goals
          rw [hr] at hbad
          cases hbad
  · have hok : (∃ r, init.feed inputs = .ok r) ↔ ∃ r, lists.mapM jsonParserParse = .ok r := by
      rw [hf]
      cases lists.mapM jsonParserParse with
      | ok objects => exact ⟨fun _ => ⟨_, rfl⟩, fun _ => ⟨_, rfl⟩⟩
      | error e =>
        rw [error_bind]
        simp
    rw [hok, mapM_ok_iff]
    constructor
    · intro h tokens ht hover hcut
      obtain ⟨r, hr⟩ := h _ ht
      rcases (hh tokens ht).parse with ⟨-, hn⟩ | ⟨hbad, -⟩
      · exact hn hover hcut
      · rw [hr] at hbad
        cases hbad
    · intro h list hl
      cases list with
      | none => exact ⟨none, rfl⟩
      | some tokens =>
        rcases (hh tokens hl).parse with ⟨hr, -⟩ | ⟨-, hover, hcut⟩
        · exact hr
        · exact absurd hcut (h tokens hl hover)

/-- Only opening brackets have been collected. -/
structure Opened (parser : MessageParser) (n : Nat) : Prop where
  state : parser.lexer.state = .inStart
  token : parser.lexer.token = []
  braceCount : parser.braceCount = 0
  bracketCount : parser.bracketCount = n
  tokenSize : parser.tokenSize = n
  tokens : parser.tokens.length = n ∧ ∀ t ∈ parser.tokens, tokenIsOperator t 0x5B = true

theorem lex_bracket (h : Opened parser n) : parser.lex (.byte 0x5B) =
    .ok ({ parser.lexer with x := parser.lexer.x + 1 },
      [⟨.operator, [0x5B], parser.lexer.x + 1, parser.lexer.y⟩]) := by
  have hnew : jsonLexer 0x5B .inStart = .emit .operator := by decide
  have hlook : neededLookahead .inStart (.emit .operator) = false := by decide
  have hsize : ¬ (0 > maxTokenSize) := by simp
  simp [MessageParser.lex, Lexer.feedChar, Lexer.feedLoop, h.state, h.token, hnew, hlook, ok_bind,
    Lexer.restart, Lexer.tokenOf, hsize, pure, Except.pure]

/-- A bracket is collected; beyond the limit on nesting all are handed over. -/
theorem Opened.step (h : Opened parser n) : ∃ parser', Opened parser' (n + 1) ∧
    parser.step (.byte 0x5B) = .ok (if n < maxNesting then (parser', [])
      else (parser'.reset, [some parser'.tokens])) := by
  let token : Token := ⟨.operator, [0x5B], parser.lexer.x + 1, parser.lexer.y⟩
  let parser' := ({ parser with lexer := { parser.lexer with x := parser.lexer.x + 1 } } :
    MessageParser).collect token
  have hop : tokenIsOperator token 0x5B = true := by simp [tokenIsOperator, token]
  have h' : Opened parser' (n + 1) := by
    refine ⟨h.state, h.token, ?_, ?_, ?_, ?_, forall_mem_append.2 ⟨h.tokens.2, forall_mem_singleton.2 hop⟩⟩
    · simp [parser', collect, h.braceCount, braceStep_operator hop]
    · simp [parser', collect, h.bracketCount, bracketStep_operator hop]
    · simp [parser', collect, h.tokenSize, token]
    · simp [parser', collect, h.tokens.1]
  have hclosed : parser'.closed = false := by
    simp only [closed, h'.braceCount, h'.bracketCount, decide_eq_false_iff_not]
    omega
  have hexceeds : parser'.exceeds = decide (¬ n < maxNesting) := by
    simp only [exceeds, h'.braceCount, h'.bracketCount, h'.tokenSize, maxTokenSize, maxNesting]
    apply decide_eq_decide.2
    omega
  refine ⟨parser', h', ?_⟩
  rw [MessageParser.step, lex_bracket h, ok_bind]
  simp only [processTokens, processToken]
  rw [if_neg (by decide), hclosed, hexceeds]
  by_cases hn : n < maxNesting
  all_goals simp [hn, parser', token, pure, Except.pure]

theorem scan_brackets (ts : List Token) : ∀ k, (∀ t ∈ ts, tokenIsOperator t 0x5B = true) →
    scan (.arrayFirst :: k) ts = .more := by
  induction ts with
  | nil => exact fun k _ => scan_nil (by simp)
  | cons t ts ih =>
    intro k h
    have ht := h t (by simp)
    have hclose : tokenIsOperator t 0x5D = false := operator_ne ht (by decide)
    have hbrace : tokenIsOperator t 0x7B = false := operator_ne ht (by decide)
    rw [scan_cons_some (l := [.arrayFirst, .arrayNext]) (by simp [symStep, valueStep, ht, hclose, hbrace])]
    exact ih _ fun t' ht' => h t' (by simp [ht'])

theorem Opened.parse_fails (h : Opened parser (n + 1)) : jsonParserParse (some parser.tokens) = .error .assertion := by
  obtain ⟨hlen, hall⟩ := h.tokens
  obtain ⟨t, ts, htokens⟩ := exists_cons_of_length_eq_add_one hlen
  rw [htokens] at hall ⊢
  have hop := hall t (by simp)
  have hbrace : tokenIsOperator t 0x7B = false := operator_ne hop (by decide)
  have hcut : CutShort (t :: ts) := by
    rw [CutShort, scan_cons_some (l := [.arrayFirst]) (by simp [symStep, valueStep, hop, hbrace])]
    exact scan_brackets ts [] fun t' ht' => hall t' (by simp [ht'])
  obtain ⟨-, hn⟩ | ⟨hbad, -⟩ := jsonParserParse_spec (t :: ts) (by simp)
  · exact absurd hcut hn
  · exact hbad

theorem Opened.feed_fails (k : Nat) (h : Opened parser n) (hn : n + k = maxNesting) :
    parser.feed (replicate (k + 1) (.byte 0x5B)) = .error .assertion := by
  induction k generalizing parser n with
  | zero =>
    obtain ⟨parser', h', hs⟩ := h.step
    rw [if_neg (by omega)] at hs
    rw [replicate_succ, feed, hs, ok_bind]
    dsimp only
    rw [mapM_cons, h'.parse_fails]
    rfl
  | succ k ih =>
    obtain ⟨parser', h', hs⟩ := h.step
    rw [if_pos (by omega)] at hs
    rw [replicate_succ, feed, hs, ok_bind]
    dsimp only
    rw [ih h' (by omega)]
    rfl

/-- More brackets than the limit on nesting: the parser is handed all of them and looks for
one more token. -/
theorem feed_brackets_fails : init.feed (replicate 1025 (.byte 0x5B)) = .error .assertion :=
  Opened.feed_fails 1024 (n := 0) ⟨rfl, rfl, rfl, rfl, rfl, rfl, by simp [init]⟩ rfl

end Streamer

end GemDroid.Json
