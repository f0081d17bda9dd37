import GemDroid.Json.Streamer
import GemDroid.Lib.Fallible
import Mathlib.Algebra.BigOperators.Group.List.Basic
import Mathlib.Algebra.Order.Group.Int

/-! When the parser reads past its last token.

`scan` reads a list of tokens once, from left to right, with a stack of what is still wanted.
The parser fails its assertion exactly on the lists that are over while something is wanted,
`CutShort`. The stack has one frame for each brace and bracket that is open, so such a list is
never one whose brackets balance or close too much: the streamer hands it over only when a
limit is exceeded. -/
namespace GemDroid.Json
open Lib List Function Option

variable {ts : List Token} {t : Token}

/-- What may be wanted next. -/
inductive Sym
  | value
  /-- Behind an opening bracket, and behind a value of an array. -/
  | arrayFirst
  | arrayNext
  /-- Behind an opening brace, and behind a value of an object. -/
  | objectFirst
  | objectNext
  | key
  | colon
  /-- Behind a value that stands where a key should. -/
  | notKey
  deriving DecidableEq, Repr

variable {k l : List Sym} {s : Sym}

/-- How a list of tokens reads: as a value and what may follow it, as none, or as one that is
not over. -/
inductive Verdict
  | done
  | bad
  | more
  deriving DecidableEq, Repr

def scalarOf (t : Token) : Option QObject :=
  match t.type with
  | .string =>
    match qstringFromEscapedStr t with
    | .ok str => some (.string str)
    | .error _ => none
  | .integer =>
    match strtoll t.value with
    | some value => some (.int value)
    | none => some (.float t.value)
  | .float => some (.float t.value)
  | .keyword =>
    if tokenIsKeyword t [0x74, 0x72, 0x75, 0x65] then some (.bool true)
    else if tokenIsKeyword t [0x66, 0x61, 0x6C, 0x73, 0x65] then some (.bool false)
    else none
  | _ => none

def isScalar (t : Token) : Bool := (scalarOf t).isSome

def isString (t : Token) : Bool :=
  match scalarOf t with
  | some (.string _) => true
  | _ => false

def valueStep (t : Token) : Option (List Sym) :=
  if tokenIsOperator t 0x7B then some [.objectFirst]
  else if tokenIsOperator t 0x5B then some [.arrayFirst]
  else if isScalar t then some []
  else none

def keyStep (t : Token) : Option (List Sym) :=
  if isString t then some [] else (valueStep t).map (· ++ [.notKey])

/-- What is wanted behind a token, in place of what was. -/
def symStep : Sym → Token → Option (List Sym)
  | .value, t => valueStep t
  | .arrayFirst, t => if tokenIsOperator t 0x5D then some [] else (valueStep t).map (· ++ [.arrayNext])
  | .arrayNext, t =>
    if tokenIsOperator t 0x5D then some []
    else if tokenIsOperator t 0x2C then some [.value, .arrayNext]
    else none
  | .objectFirst, t =>
    if tokenIsOperator t 0x7D then some [] else (keyStep t).map (· ++ [.colon, .value, .objectNext])
  | .objectNext, t =>
    if tokenIsOperator t 0x7D then some []
    else if tokenIsOperator t 0x2C then some [.key, .colon, .value, .objectNext]
    else none
  | .key, t => keyStep t
  | .colon, t => if tokenIsOperator t 0x3A then some [] else none
  | .notKey, _ => none

/-- Read tokens, with a stack of what is wanted. -/
def scan : List Sym → List Token → Verdict
  | [], _ => .done
  | .notKey :: _, _ => .bad
  | _ :: _, [] => .more
  | s :: k, t :: ts =>
    match symStep s t with
    | none => .bad
    | some l => scan (l ++ k) ts

def CutShort (tokens : List Token) : Prop := scan [.value] tokens = .more

instance (tokens : List Token) : Decidable (CutShort tokens) :=
  inferInstanceAs (Decidable (scan [.value] tokens = .more))

section Scan

@[simp] theorem scan_notKey : scan (.notKey :: k) ts = .bad := by
  cases ts <;> rfl

theorem scan_nil (h : s ≠ .notKey) : scan (s :: k) [] = .more := by
  cases s <;> first | rfl | exact absurd rfl h

theorem scan_cons_some (hs : symStep s t = some l) : scan (s :: k) (t :: ts) = scan (l ++ k) ts := by
  cases s with
  | notKey => simp [symStep] at hs
  | _ => rw [scan, hs]; simp

theorem scan_cons_none (hs : symStep s t = none) : scan (s :: k) (t :: ts) = .bad := by
  cases s with
  | notKey => simp
  | _ => rw [scan, hs]; simp

theorem scan_congr {s' : Sym} {k' : List Sym} (h : (symStep s t).map (· ++ k) = (symStep s' t).map (· ++ k')) :
    scan (s :: k) (t :: ts) = scan (s' :: k') (t :: ts) := by
  cases hs : symStep s t with
  | none =>
    rw [hs] at h
    have hs' : symStep s' t = none := by simpa using h.symm
    rw [scan_cons_none hs, scan_cons_none hs']
  | some l =>
    rw [hs] at h
    obtain ⟨l', hl, he⟩ := map_eq_some_iff.1 h.symm
    rw [scan_cons_some hs, scan_cons_some hl, he]

end Scan

/-! ### Tokens of different kinds -/

section Kinds
variable {op op' : Byte}

theorem operator_ne (h : tokenIsOperator t op = true) (hne : op ≠ op') : tokenIsOperator t op' = false := by
  simp only [tokenIsOperator, decide_eq_true_eq, decide_eq_false_iff_not] at h ⊢
  intro h'
  have he : [op] = [op'] := h.2.symm.trans h'.2
  exact hne (cons.inj he).1

theorem operator_type (h : tokenIsOperator t op = true) : t.type = .operator := by
  simp only [tokenIsOperator, decide_eq_true_eq] at h
  exact h.1

theorem isScalar_type (h : isScalar t = true) : t.type ≠ .operator := by
  intro ht
  simp [isScalar, scalarOf, ht] at h

theorem valueStep_scalar (h : isScalar t = true) : valueStep t = some [] := by
  have hne : ∀ op, tokenIsOperator t op = false := by
    intro op
    by_contra h'
    exact isScalar_type h (operator_type (by simpa using h'))
  simp [valueStep, hne, h]

theorem symStep_key (h : isString t = false) (k : List Sym) :
    (symStep .key t).map (· ++ k) = (symStep .value t).map (· ++ (.notKey :: k)) := by
  simp [symStep, keyStep, h, comp_def]

end Kinds

/-! ### The parser against the scan -/

/-- What a rule does to its tokens is what the symbols `σ` do to them. -/
def Runs {α : Type} (σ : List Sym) (ts : List Token) : Except Fault (Parsed α) → Prop
  | .ok (some _, ctxt) =>
    ctxt.tokens.length < ts.length ∧ ∀ k, scan (σ ++ k) ts = scan k ctxt.tokens
  | .ok (none, _) => ∀ k, scan (σ ++ k) ts = .bad
  | .error .assertion => ∀ k, scan (σ ++ k) ts = .more
  | .error .endless => False

open Runs

structure Reads (ctxt : Ctxt) (r : Except Fault (Parsed QObject)) : Prop where
  runs : Runs [.value] ctxt.tokens r
  string : ∀ str ctxt', r = .ok (some (.string str), ctxt') → ∃ t, isString t = true ∧ ctxt.tokens = t :: ctxt'.tokens
  other : ∀ t ts, ctxt.tokens = t :: ts → isString t = true → ∃ str ctxt', r = .ok (some (.string str), ctxt')

section Rules
variable {α β : Type} {σ σ' : List Sym} {ctxt saved : Ctxt} {r : Except Fault (Parsed α)}
  {f : Parsed α → Except Fault (Parsed β)} {v : QObject} {c : Ctxt}

theorem Runs.congr {ts' : List Token} (h : Runs σ' ts' r) (hlen : ts'.length ≤ ts.length)
    (hs : ∀ k, scan (σ ++ k) ts = scan (σ' ++ k) ts') : Runs σ ts r := by
  match r, h with
  | .ok (some _, _), h => exact ⟨h.1.trans_le hlen, fun k => (hs k).trans (h.2 k)⟩
  | .ok (none, _), h | .error .assertion, h => exact fun k => (hs k).trans (h k)
  | .error .endless, h => exact h

theorem Runs.take (hs : symStep s t = some l) (h : Runs (l ++ σ) ts r) : Runs (s :: σ) (t :: ts) r := by
  refine h.congr (Nat.le_succ _) fun k => ?_
  rw [append_assoc]
  exact scan_cons_some hs

theorem Runs.done {a : α} (hs : symStep s t = some [])
    (ht : ctxt.tokens = ts) : Runs [s] (t :: ts) (.ok (some a, ctxt)) := by
  refine ⟨by rw [ht]; exact Nat.lt_succ_self _, fun k => ?_⟩
  rw [ht]
  exact scan_cons_some hs

theorem Runs.refuse (hs : symStep s t = none) : Runs (s :: σ) (t :: ts) (.ok (none, ctxt) : Except Fault (Parsed α)) :=
  fun _ => scan_cons_none hs

theorem popToken_cons (ht : ctxt.tokens = t :: ts) : ctxt.popToken = .ok (t, { ctxt with tokens := ts }) := by
  rw [Ctxt.popToken, ht]

theorem Runs.pop (ctxt : Ctxt) {f : Token × Ctxt → Except Fault (Parsed α)} (hs : s ≠ .notKey)
    (h : ∀ t ts, ctxt.tokens = t :: ts → Runs (s :: σ) (t :: ts) (f (t, { ctxt with tokens := ts }))) :
    Runs (s :: σ) ctxt.tokens (ctxt.popToken >>= f) := by
  cases ht : ctxt.tokens with
  | nil =>
    rw [Ctxt.popToken, ht]
    exact fun k => scan_nil hs
  | cons t ts =>
    rw [popToken_cons ht, ok_bind]
    exact h t ts ht

theorem Runs.peek (ctxt : Ctxt) {f : Token → Except Fault (Parsed α)} (hs : s ≠ .notKey)
    (h : ∀ t ts, ctxt.tokens = t :: ts → Runs (s :: σ) (t :: ts) (f t)) :
    Runs (s :: σ) ctxt.tokens (ctxt.peekToken >>= f) := by
  cases ht : ctxt.tokens with
  | nil =>
    rw [Ctxt.peekToken, ht]
    exact fun k => scan_nil hs
  | cons t ts =>
    have hp : ctxt.peekToken = .ok t := by rw [Ctxt.peekToken, ht]
    rw [hp, ok_bind]
    exact h t ts ht

section
variable (h : Runs σ ts r)
include h

theorem Runs.leave : Runs σ ts (r.map (leave saved)) := by
  match r, h with
  | .ok (some _, _), h | .ok (none, _), h | .error .assertion, h | .error .endless, h => exact h

theorem Runs.bind (hsome : ∀ a ctxt', r = .ok (some a, ctxt') → ctxt'.tokens.length < ts.length →
      Runs σ' ctxt'.tokens (f (some a, ctxt')))
    (hnone : ∀ ctxt', r = .ok (none, ctxt') → ∃ c, f (none, ctxt') = .ok (none, c)) :
    Runs (σ ++ σ') ts (r >>= f) := by
  match r, h with
  | .ok (some a, ctxt'), h =>
    have hf := hsome a ctxt' rfl h.1
    show Runs (σ ++ σ') ts (f (some a, ctxt'))
    match hr : f (some a, ctxt'), hf with
    | .ok (some _, _), hf =>
      refine ⟨hf.1.trans h.1, fun k => ?_⟩
      rw [append_assoc, h.2, hf.2]
    | .ok (none, _), hf | .error .assertion, hf =>
      intro k
      rw [append_assoc, h.2]
      exact hf k
    | .error .endless, hf => exact hf
  | .ok (none, ctxt'), h =>
    obtain ⟨c, hc⟩ := hnone ctxt' rfl
    show Runs (σ ++ σ') ts (f (none, ctxt'))
    rw [hc]
    intro k
    rw [append_assoc]
    exact h _
  | .error .assertion, h =>
    intro k
    rw [append_assoc]
    exact h _
  | .error .endless, h => exact h

theorem Runs.pass (hsome : ∀ a ctxt', ∃ b, f (some a, ctxt') = .ok (some b, ctxt'))
    (hnone : ∀ ctxt', ∃ c, f (none, ctxt') = .ok (none, c)) : Runs σ ts (r >>= f) := by
  match r, h with
  | .ok (some a, ctxt'), h =>
    obtain ⟨b, hb⟩ := hsome a ctxt'
    show Runs σ ts (f (some a, ctxt'))
    rw [hb]
    exact h
  | .ok (none, ctxt'), h =>
    obtain ⟨c, hc⟩ := hnone ctxt'
    show Runs σ ts (f (none, ctxt'))
    rw [hc]
    exact h
  | .error .assertion, h => exact h
  | .error .endless, h => exact h

theorem Runs.exit (f : α → β) :
    Runs σ ts (r >>= fun p => Except.ok ((Json.leave saved p).1.map f, (Json.leave saved p).2)) :=
  h.pass (fun _ _ => ⟨_, rfl⟩) fun _ => ⟨_, rfl⟩

theorem Runs.next {loop : α → Token → Ctxt → Except Fault (Parsed β)} (hs : s ≠ .notKey)
    (hloop : ∀ a t c, c.tokens.length < ts.length → Runs [s] (t :: c.tokens) (loop a t c))
    (hsome : ∀ a c, f (some a, c) = c.popToken >>= fun p => loop a p.1 p.2)
    (hnone : ∀ c, ∃ c', f (none, c) = .ok (none, c')) : Runs (σ ++ [s]) ts (r >>= f) := by
  refine bind h (fun a c _ hlen => ?_) fun c _ => hnone c
  rw [hsome]
  refine pop c hs fun t ts' ht => ?_
  have hlt : ts'.length < ts.length := by
    rw [ht, length_cons] at hlen
    omega
  exact hloop a t { c with tokens := ts' } hlt

end

variable {parseValue : Ctxt → Except Fault (Parsed QObject)} {N : Nat}

theorem runs_pair_other (hr : Reads ctxt (parseValue ctxt)) (ht : ctxt.tokens = t :: ts)
    (hstr : isString t = false) {f : Parsed QObject → Except Fault (Parsed α)}
    (hf : ∀ v c, (∀ str, v ≠ some (.string str)) → ∃ c', f (v, c) = .ok (none, c')) :
    Runs [.key, .colon, .value] (t :: ts) (parseValue ctxt >>= f) := by
  have hkey : ∀ k, scan ([.key, .colon, .value] ++ k) (t :: ts) =
      scan (.value :: .notKey :: .colon :: .value :: k) (t :: ts) :=
    fun k => scan_congr (symStep_key hstr _)
  have hruns := hr.runs
  rw [ht] at hruns
  match hp : parseValue ctxt, hruns with
  | .ok (some v, c), h =>
    have hv : ∀ str, some v ≠ some (QObject.string str) := by
      intro str he
      cases he
      obtain ⟨t', hs', ht'⟩ := hr.string str c hp
      have : t' = t := (cons.inj (ht'.symm.trans ht)).1
      rw [this, hstr] at hs'
      exact absurd hs' (by simp)
    obtain ⟨c', hc'⟩ := hf (some v) c hv
    rw [ok_bind, hc']
    intro k
    rw [hkey]
    exact (h.2 _).trans scan_notKey
  | .ok (none, c), h =>
    obtain ⟨c', hc'⟩ := hf none c (by simp)
    rw [ok_bind, hc']
    intro k
    rw [hkey]
    exact h _
  | .error .assertion, h =>
    intro k
    rw [hkey]
    exact h _
  | .error .endless, h => exact h

section
variable (hv : ∀ c, c.tokens.length < N → Reads c (parseValue c))
include hv

theorem runs_pair (dict : Entries) (ctxt : Ctxt) (hN : ctxt.tokens.length < N) :
    Runs [.key, .colon, .value] ctxt.tokens (parsePair parseValue dict ctxt) := by
  refine Runs.leave ?_
  refine peek _ (by simp) fun t ts ht => ?_
  have hr := hv ctxt hN
  by_cases hstr : isString t = true
  · obtain ⟨str, c₁, hp⟩ := hr.other t ts ht hstr
    obtain ⟨t', -, ht'⟩ := hr.string str c₁ hp
    have htok : ts = c₁.tokens := (cons.inj (ht.symm.trans ht')).2
    rw [ht, htok, length_cons] at hN
    rw [hp, ok_bind, htok]
    refine take (l := []) (by simp [symStep, keyStep, hstr]) ?_
    refine pop _ (by simp) fun t₂ ts₂ ht₂ => ?_
    dsimp only
    cases hc : tokenIsOperator t₂ 0x3A with
    | true =>
      rw [ht₂, length_cons] at hN
      refine take (l := []) (by simp [symStep, hc]) ?_
      refine pass (hv ⟨ts₂, c₁.err⟩ (by simp only; omega)).runs ?_ ?_
      · exact fun v c => ⟨_, rfl⟩
      · exact fun c => ⟨_, rfl⟩
    | false => exact refuse (by simp [symStep, hc])
  · refine runs_pair_other hr ht (by simpa using hstr) fun v c hne => ?_
    match v, hne with
    | some (.string str), hne => exact absurd rfl (hne str)
    | some (.int _), _ => exact ⟨_, rfl⟩
    | some (.float _), _ | some (.bool _), _ | some (.list _), _ | some (.dict _), _ | none, _ => exact ⟨_, rfl⟩

theorem runs_objectLoop (fuel : Nat) : ∀ (dict : Entries) (token : Token) (ctxt : Ctxt), ctxt.tokens.length < N →
      ctxt.tokens.length < fuel →
      Runs [.objectNext] (token :: ctxt.tokens) (objectLoop parseValue fuel dict token ctxt) := by
  induction fuel with
  | zero => exact fun _ _ _ _ h => absurd h (Nat.not_lt_zero _)
  | succ fuel ih =>
    intro dict token ctxt hN hf
    rw [objectLoop]
    cases hclose : tokenIsOperator token 0x7D with
    | true => exact done (by simp [symStep, hclose]) rfl
    | false =>
      cases hcomma : tokenIsOperator token 0x2C with
      | true =>
        refine take (l := [.key, .colon, .value, .objectNext]) (by simp [symStep, hclose, hcomma]) ?_
        exact next (runs_pair hv dict ctxt hN) (by simp)
          (fun dict' t c hlen => ih dict' t c (by omega) (by omega)) (fun _ _ => rfl) fun _ => ⟨_, rfl⟩
      | false => exact refuse (by simp [symStep, hclose, hcomma])

theorem runs_object (ht : ctxt.tokens = t :: ts) (hN : ts.length < N) (hop : tokenIsOperator t 0x7B = true) :
    Runs [.value] ctxt.tokens (parseObject parseValue ctxt) := by
  have hbody : Runs [.value] ctxt.tokens (objectBody parseValue ctxt) := by
    refine pop _ (by simp) fun t' ts' ht' => ?_
    obtain ⟨rfl, rfl⟩ := cons.inj (ht.symm.trans ht')
    dsimp only
    rw [hop]
    refine take (l := [.objectFirst]) (by simp [symStep, valueStep, hop]) ?_
    refine peek { ctxt with tokens := ts } (by simp) fun p ps hp => ?_
    cases hclose : tokenIsOperator p 0x7D with
    | true =>
      have hpop := popToken_cons hp
      simp only [Bool.not_true, Bool.false_eq_true, if_false, hpop, ok_bind]
      exact done (by simp [symStep, hclose]) rfl
    | false =>
      have hfirst : ∀ k, scan ([.objectFirst] ++ k) (p :: ps) = scan ([.key, .colon, .value] ++ [.objectNext] ++ k) (p :: ps) :=
        fun k => scan_congr (by simp [symStep, hclose, comp_def])
      rw [← show ts = p :: ps from hp] at hfirst ⊢
      refine congr ?_ le_rfl hfirst
      exact next (runs_pair hv [] { ctxt with tokens := ts } hN) (by simp)
        (fun dict t₂ c hlen => runs_objectLoop hv _ dict t₂ c (by omega) (Nat.lt_succ_self _))
        (fun _ _ => rfl) fun _ => ⟨_, rfl⟩
  exact hbody.exit QObject.dict

theorem runs_arrayLoop (fuel : Nat) : ∀ (list : List QObject) (token : Token) (ctxt : Ctxt), ctxt.tokens.length < N →
      ctxt.tokens.length < fuel →
      Runs [.arrayNext] (token :: ctxt.tokens) (arrayLoop parseValue fuel list token ctxt) := by
  induction fuel with
  | zero => exact fun _ _ _ _ h => absurd h (Nat.not_lt_zero _)
  | succ fuel ih =>
    intro list token ctxt hN hf
    rw [arrayLoop]
    cases hclose : tokenIsOperator token 0x5D with
    | true => exact done (by simp [symStep, hclose]) rfl
    | false =>
      cases hcomma : tokenIsOperator token 0x2C with
      | true =>
        refine take (l := [.value, .arrayNext]) (by simp [symStep, hclose, hcomma]) ?_
        exact next (hv ctxt hN).runs (by simp)
          (fun obj t c hlen => ih (list ++ [obj]) t c (by omega) (by omega)) (fun _ _ => rfl) fun _ => ⟨_, rfl⟩
      | false => exact refuse (by simp [symStep, hclose, hcomma])

theorem runs_array (ht : ctxt.tokens = t :: ts) (hN : ts.length < N) (hop : tokenIsOperator t 0x5B = true) :
    Runs [.value] ctxt.tokens (parseArray parseValue ctxt) := by
  have hbrace : tokenIsOperator t 0x7B = false := operator_ne hop (by decide)
  have hbody : Runs [.value] ctxt.tokens (arrayBody parseValue ctxt) := by
    refine pop _ (by simp) fun t' ts' ht' => ?_
    obtain ⟨rfl, rfl⟩ := cons.inj (ht.symm.trans ht')
    dsimp only
    rw [hop]
    refine take (l := [.arrayFirst]) (by simp [symStep, valueStep, hop, hbrace]) ?_
    refine peek { ctxt with tokens := ts } (by simp) fun p ps hp => ?_
    cases hclose : tokenIsOperator p 0x5D with
    | true =>
      have hpop := popToken_cons hp
      simp only [Bool.not_true, Bool.false_eq_true, if_false, hpop, ok_bind]
      exact done (by simp [symStep, hclose]) rfl
    | false =>
      have hfirst : ∀ k, scan ([.arrayFirst] ++ k) (p :: ps) = scan ([.value] ++ [.arrayNext] ++ k) (p :: ps) :=
        fun k => scan_congr (by simp [symStep, hclose, comp_def])
      rw [← show ts = p :: ps from hp] at hfirst ⊢
      refine congr ?_ le_rfl hfirst
      exact next (hv { ctxt with tokens := ts } hN).runs (by simp)
        (fun obj t₂ c hlen => runs_arrayLoop hv _ [obj] t₂ c (lt_trans hlen hN) (Nat.lt_succ_self _))
        (fun _ _ => rfl) fun _ => ⟨_, rfl⟩
  exact hbody.exit QObject.list

end

section
variable (ht : ctxt.tokens = t :: ts)
include ht

theorem parseObject_other (hop : tokenIsOperator t 0x7B = false) : parseObject parseValue ctxt = .ok (none, ctxt) := by
  have hpop := popToken_cons ht
  have hbody : objectBody parseValue ctxt = .ok (none, { ctxt with tokens := ts }) := by
    rw [objectBody, hpop, ok_bind]
    dsimp only
    rw [hop]
    rfl
  rw [parseObject, hbody]
  rfl

theorem parseArray_other (hop : tokenIsOperator t 0x5B = false) : parseArray parseValue ctxt = .ok (none, ctxt) := by
  have hpop := popToken_cons ht
  have hbody : arrayBody parseValue ctxt = .ok (none, { ctxt with tokens := ts }) := by
    rw [arrayBody, hpop, ok_bind]
    dsimp only
    rw [hop]
    rfl
  rw [parseArray, hbody]
  rfl

theorem parseKeyword_other (htype : t.type ≠ .keyword) : parseKeyword ctxt = .ok (none, ctxt) := by
  have hpop := popToken_cons ht
  have hbody : keywordBody ctxt = .ok (none, { ctxt with tokens := ts }) := by
    rw [keywordBody, hpop, ok_bind]
    exact if_pos htype
  rw [parseKeyword, hbody]
  rfl

theorem parseKeyword_keyword (htype : t.type = .keyword) : parseKeyword ctxt = .ok ((scalarOf t).elim
    (none, ctxt.parseError (.invalidKeyword t.value)) fun v => (some v, { ctxt with tokens := ts })) := by
  have hpop := popToken_cons ht
  rw [parseKeyword, keywordBody, hpop, ok_bind, scalarOf, htype]
  dsimp only
  rw [if_neg (by simp [htype])]
  by_cases h₁ : tokenIsKeyword t [0x74, 0x72, 0x75, 0x65] = true
  · rw [if_pos h₁, if_pos h₁]
    rfl
  rw [if_neg h₁, if_neg h₁]
  by_cases h₂ : tokenIsKeyword t [0x66, 0x61, 0x6C, 0x73, 0x65] = true
  · rw [if_pos h₂, if_pos h₂]
    rfl
  · rw [if_neg h₂, if_neg h₂]
    rfl

theorem parseLiteral_some (htype : t.type ≠ .keyword) (hv : scalarOf t = some v) :
    parseLiteral ctxt = .ok (some v, { ctxt with tokens := ts }) := by
  have hpop := popToken_cons ht
  rw [scalarOf] at hv
  rw [parseLiteral, hpop, ok_bind]
  cases h : t.type with
  | string =>
    cases hq : qstringFromEscapedStr t with
    | ok str =>
      simp only [h, hq, some.injEq] at hv ⊢
      rw [← hv]
      rfl
    | error e => simp [h, hq] at hv
  | integer =>
    cases hq : strtoll t.value with
    | some i | none =>
      simp only [h, hq, some.injEq] at hv ⊢
      rw [← hv]
      rfl
  | float =>
    simp only [h, some.injEq] at hv ⊢
    rw [← hv]
    rfl
  | keyword => exact absurd h htype
  | _ => simp [h] at hv

theorem parseLiteral_none (hv : scalarOf t = none) : ∃ c, parseLiteral ctxt = .ok (none, c) := by
  have hpop := popToken_cons ht
  rw [scalarOf] at hv
  rw [parseLiteral, hpop, ok_bind]
  cases h : t.type with
  | string =>
    cases hq : qstringFromEscapedStr t with
    | ok str => simp [h, hq] at hv
    | error e =>
      simp only [h, hq]
      exact ⟨_, rfl⟩
  | integer => cases hq : strtoll t.value <;> simp [h, hq] at hv
  | float => simp [h] at hv
  | _ =>
    simp only [h]
    exact ⟨_, rfl⟩

theorem scalar_some (hv : scalarOf t = some v) :
    orElse (parseKeyword ctxt) parseLiteral = .ok (some v, { ctxt with tokens := ts }) := by
  by_cases htype : t.type = .keyword
  · rw [parseKeyword_keyword ht htype, hv]
    rfl
  · rw [parseKeyword_other ht htype]
    exact parseLiteral_some ht htype hv

theorem scalar_none (hv : scalarOf t = none) : ∃ c, orElse (parseKeyword ctxt) parseLiteral = .ok (none, c) := by
  by_cases htype : t.type = .keyword
  · rw [parseKeyword_keyword ht htype, hv]
    have ht' : (ctxt.parseError (.invalidKeyword t.value)).tokens = t :: ts := ht
    exact parseLiteral_none ht' hv
  · rw [parseKeyword_other ht htype]
    exact parseLiteral_none ht hv

end

theorem parseValue_eq (fuel : Nat) (ctxt : Ctxt) : Json.parseValue (fuel + 1) ctxt =
    (parseObject (Json.parseValue fuel) ctxt >>= fun r => match r with
      | (some obj, c) => .ok (some obj, c)
      | (none, c) => parseArray (Json.parseValue fuel) c >>= fun r => match r with
        | (some obj, c) => .ok (some obj, c) | (none, c) => orElse (parseKeyword c) parseLiteral) := by
  rw [Json.parseValue]
  unfold orElse
  match parseObject (Json.parseValue fuel) ctxt with
  | .error e => rfl
  | .ok (some obj, c) => rfl
  | .ok (none, c) =>
    simp only [ok_bind]
    match parseArray (Json.parseValue fuel) c with
    | .error e => rfl
    | .ok (some obj, c') => rfl
    | .ok (none, c') => rfl

/-- A rule that gives NULL has put its tokens back. -/
theorem exit_none {f : α → β}
    (h : (r >>= fun p => Except.ok ((leave saved p).1.map f, (leave saved p).2)) = .ok (none, c)) :
    c.tokens = saved.tokens := by
  match r, h with
  | .ok (none, _), h =>
    cases h
    rfl

theorem exit_some {f : α → β} {v : β}
    (h : (r >>= fun p => Except.ok ((leave saved p).1.map f, (leave saved p).2)) = .ok (some v, c)) :
    ∃ a, v = f a := by
  match r, h with
  | .ok (some a, _), h =>
    cases h
    exact ⟨a, rfl⟩

/-- What is read behind a brace or bracket is no string, and without it no later rule gives an object. -/
theorem Reads.frame {op : Byte} {r : Except Fault (Parsed QObject)} {f : Parsed QObject → Except Fault (Parsed QObject)}
    (ht : ctxt.tokens = t :: ts) (hop : tokenIsOperator t op = true) (hruns : Runs [.value] ctxt.tokens r)
    (hne : ∀ str c, r ≠ .ok (some (.string str), c)) (hsome : ∀ v c, f (some v, c) = .ok (some v, c))
    (hnone : ∀ c, r = .ok (none, c) → ∃ c', f (none, c) = .ok (none, c')) : Reads ctxt (r >>= f) := by
  have hother : ∀ t' ts', ctxt.tokens = t' :: ts' → ¬ isString t' = true := by
    intro t' ts' ht' hs
    have he : t' = t := (cons.inj (ht'.symm.trans ht)).1
    simp [isString, scalarOf, he, operator_type hop] at hs
  match r with
  | .error e => exact ⟨hruns, fun _ _ h => absurd h nofun, fun t' ts' ht' hs => absurd hs (hother t' ts' ht')⟩
  | .ok (some v, c) =>
    rw [ok_bind, hsome]
    exact ⟨hruns, fun str c h => absurd h (hne str c), fun t' ts' ht' hs => absurd hs (hother t' ts' ht')⟩
  | .ok (none, c) =>
    obtain ⟨c', hc'⟩ := hnone c rfl
    rw [ok_bind, hc']
    exact ⟨hruns, by simp, fun t' ts' ht' hs => absurd hs (hother t' ts' ht')⟩

theorem reads_parseValue (fuel : Nat) : ∀ ctxt : Ctxt, ctxt.tokens.length < fuel →
    Reads ctxt (Json.parseValue fuel ctxt) := by
  induction fuel with
  | zero => exact fun _ h => absurd h (Nat.not_lt_zero _)
  | succ fuel ih =>
    intro ctxt hlen
    cases ht : ctxt.tokens with
    | nil =>
      have hobj : parseObject (Json.parseValue fuel) ctxt = .error .assertion := by
        rw [parseObject, objectBody, Ctxt.popToken, ht]
        rfl
      rw [parseValue_eq, hobj, error_bind]
      refine ⟨?_, by simp, fun t ts h => ?_⟩
      · rw [ht]
        exact fun k => scan_nil (by simp)
      · rw [ht] at h
        cases h
    | cons t ts =>
      have hts : ts.length < fuel := by
        rw [ht, length_cons] at hlen
        omega
      rw [parseValue_eq]
      cases hbrace : tokenIsOperator t 0x7B with
      | true =>
        refine Reads.frame ht hbrace (runs_object ih ht hts hbrace) ?_ (fun _ _ => rfl) fun c hr => ?_
        · intro str c hr
          obtain ⟨d, hd⟩ := exit_some hr
          cases hd
        · have hc : c.tokens = t :: ts := (exit_none hr).trans ht
          dsimp only
          rw [parseArray_other hc (operator_ne hbrace (by decide)), ok_bind]
          exact scalar_none hc (by simp [scalarOf, operator_type hbrace])
      | false =>
        rw [parseObject_other ht hbrace, ok_bind]
        dsimp only
        cases hbracket : tokenIsOperator t 0x5B with
        | true =>
          refine Reads.frame ht hbracket (runs_array ih ht hts hbracket) ?_ (fun _ _ => rfl) fun c hr => ?_
          · intro str c hr
            obtain ⟨l, hl⟩ := exit_some hr
            cases hl
          · exact scalar_none ((exit_none hr).trans ht) (by simp [scalarOf, operator_type hbracket])
        | false =>
          rw [parseArray_other ht hbracket, ok_bind]
          dsimp only
          cases hs : scalarOf t with
          | none =>
            obtain ⟨c', hc'⟩ := scalar_none ht hs
            rw [hc']
            refine ⟨?_, by simp, fun t' ts' ht' hstr => ?_⟩
            · rw [ht]
              exact refuse (by simp [symStep, valueStep, hbrace, hbracket, isScalar, hs])
            · have he : t' = t := (cons.inj (ht'.symm.trans ht)).1
              simp [isString, he, hs] at hstr
          | some v =>
            have hscalar : isScalar t = true := by simp [isScalar, hs]
            rw [scalar_some ht hs]
            refine ⟨?_, fun str c h => ?_, fun t' ts' ht' hstr => ?_⟩
            · rw [ht]
              exact done (by simp [symStep, valueStep_scalar hscalar]) rfl
            · simp only [Except.ok.injEq, Prod.mk.injEq, some.injEq] at h
              obtain ⟨hv, rfl⟩ := h
              exact ⟨t, by simp [isString, hs, hv], ht⟩
            · have he : t' = t := (cons.inj (ht'.symm.trans ht)).1
              cases v with
              | string str => exact ⟨str, _, rfl⟩
              | _ => simp [isString, he, hs] at hstr

/-- The parser fails its assertion exactly on a list that is cut short, and ends. -/
theorem jsonParserParse_spec (tokens : List Token) (hne : tokens ≠ []) :
    (∃ r, jsonParserParse (some tokens) = .ok r) ∧ ¬ CutShort tokens ∨
      jsonParserParse (some tokens) = .error .assertion ∧ CutShort tokens := by
  obtain ⟨t, ts, rfl⟩ := exists_cons_of_ne_nil hne
  have hr := (reads_parseValue ((t :: ts).length + 1) ⟨t :: ts, none⟩ (Nat.lt_succ_self _)).runs
  match hp : Json.parseValue ((t :: ts).length + 1) ⟨t :: ts, none⟩, hr with
  | .ok (some v, c), hr =>
    left
    refine ⟨⟨some v, ?_⟩, ?_⟩
    · simp only [jsonParserParse, jsonParserParseErr, hp]
      rfl
    · have := hr.2 []
      rw [CutShort, show scan [.value] (t :: ts) = scan [] c.tokens from this]
      simp [scan]
  | .ok (none, c), hr =>
    left
    refine ⟨⟨none, ?_⟩, ?_⟩
    · simp only [jsonParserParse, jsonParserParseErr, hp]
      rfl
    · rw [CutShort, show scan [.value] (t :: ts) = .bad from hr []]
      simp
  | .error .assertion, hr =>
    right
    refine ⟨?_, hr []⟩
    simp only [jsonParserParse, jsonParserParseErr, hp]
    rfl

end Rules

end GemDroid.Json
