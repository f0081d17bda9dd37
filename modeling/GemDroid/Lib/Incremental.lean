import Mathlib.Data.List.Basic

/-! Parsers that get their input in pieces.

`next` takes one item from the front of the pending input, or nothing if the item is not
complete. `parse` takes items as long as there are any. A reader that goes through each
message by turns and keeps what is left of it in a state of its own gives the items of the
whole input, wherever the input is cut. -/
namespace GemDroid.Lib
open List Option

/-! ### Parsers -/

section Parser
variable {σ α β : Type}

/-- Where a parser is: its state, the items up to now, and the pending input. -/
structure Parsed (σ α β : Type) where
  state : σ
  items : List β
  rest : List α

/-- `next` only looks at what it takes. -/
structure Incremental (next : σ → List α → Option (Parsed σ α β)) : Prop where
  shorter : ∀ {s w p}, next s w = some p → p.rest.length < w.length
  extend : ∀ {s w p} (m : List α), next s w = some p → next s (w ++ m) = some { p with rest := p.rest ++ m }

def Parsed.before (items : List β) (p : Parsed σ α β) : Parsed σ α β := { p with items := items ++ p.items }

variable (next : σ → List α → Option (Parsed σ α β))

def parseLoop : Nat → σ → List α → Parsed σ α β
  | 0, s, w => ⟨s, [], w⟩
  | fuel + 1, s, w =>
    match next s w with
    | none => ⟨s, [], w⟩
    | some p => (parseLoop fuel p.state p.rest).before p.items

/-- All items of the input. Every item is at least one symbol long. -/
def parse (s : σ) (w : List α) : Parsed σ α β := parseLoop next w.length s w

variable {next} {s : σ} {w m : List α} {p : Parsed σ α β}

theorem parseLoop_none {fuel : Nat} (h : next s w = none) : parseLoop next fuel s w = ⟨s, [], w⟩ := by
  cases fuel with
  | zero => rfl
  | succ fuel => simp [parseLoop, h]

theorem parse_none (h : next s w = none) : parse next s w = ⟨s, [], w⟩ := parseLoop_none h

namespace Incremental
variable (inc : Incremental next)
include inc

/-- It does not matter how much fuel there is, if there is enough. -/
theorem parseLoop_fuel {f g : Nat} (hf : w.length ≤ f) (hg : w.length ≤ g) :
    parseLoop next f s w = parseLoop next g s w := by
  induction f generalizing g s w with
  | zero =>
    have hn : next s w = none := by
      cases h : next s w with
      | none => rfl
      | some p =>
        have := inc.shorter h
        omega
    rw [parseLoop_none hn, parseLoop_none hn]
  | succ f ih =>
    cases h : next s w with
    | none => rw [parseLoop_none h, parseLoop_none h]
    | some p =>
      have hlt := inc.shorter h
      cases g with
      | zero => omega
      | succ g => simp [parseLoop, h, ih (g := g) (s := p.state) (w := p.rest) (by omega) (by omega)]

theorem parse_some (h : next s w = some p) : parse next s w = (parse next p.state p.rest).before p.items := by
  have hlt := inc.shorter h
  calc parse next s w = parseLoop next (w.length + 1) s w := inc.parseLoop_fuel (Nat.le_refl _) (Nat.le_succ _)
    _ = (parseLoop next w.length p.state p.rest).before p.items := by simp [parseLoop, h]
    _ = (parse next p.state p.rest).before p.items := by rw [inc.parseLoop_fuel (Nat.le_of_lt hlt) (Nat.le_refl _), parse]

theorem parse_rec {motive : σ → List α → Prop} (stop : ∀ s w, next s w = none → motive s w)
    (take : ∀ s w p, next s w = some p → motive p.state p.rest → motive s w) (s : σ) (w : List α) : motive s w := by
  obtain ⟨n, hn⟩ : ∃ n, w.length ≤ n := ⟨_, Nat.le_refl _⟩
  induction n generalizing s w with
  | zero =>
    cases h : next s w with
    | none => exact stop s w h
    | some p =>
      have := inc.shorter h
      omega
  | succ n ih =>
    cases h : next s w with
    | none => exact stop s w h
    | some p =>
      have := inc.shorter h
      exact take s w p h (ih p.state p.rest (by omega))

/-- More input is parsed together with what was left of the input before. -/
theorem parse_append (s : σ) (w m : List α) : parse next s (w ++ m) =
      (parse next (parse next s w).state ((parse next s w).rest ++ m)).before (parse next s w).items := by
  induction s, w using inc.parse_rec with
  | stop s w h => rw [parse_none h]; rfl
  | take s w p h ih =>
    rw [inc.parse_some (inc.extend m h), inc.parse_some h, ih]
    simp [Parsed.before]

end Incremental
end Parser

/-! ### Readers -/

/-- What one turn of a loop over a message does: the loop is left, or goes on with what is left of
the message. -/
inductive Turn (C α β : Type) where
  | leave (c : C)
  | again (c : C) (msg : List α) (out : List β)

section Reader
variable {C σ α β : Type}

def loop (turn : C → List α → Turn C α β) : Nat → C → List α → Option (C × List β)
  | 0, _, _ => none
  | _ + 1, c, [] => some (c, [])
  | fuel + 1, c, b :: msg =>
    match turn c (b :: msg) with
    | .leave c => some (c, [])
    | .again c msg out => (loop turn fuel c msg).map fun r => (r.1, out ++ r.2)

/-- One call after the other, with a message each. -/
def calls (call : C → List α → Option (C × List β)) : C → List (List α) → Option (C × List β)
  | c, [] => some (c, [])
  | c, msg :: msgs => (call c msg).bind fun r => (calls call r.1 msgs).map fun q => (q.1, r.2 ++ q.2)

/-- A turn does what the parser does. In a state that is not `live` the parser takes nothing, and
nothing is known of the turns. -/
structure Follows (next : σ → List α → Option (Parsed σ α β)) (turn : C → List α → Turn C α β)
    (Holds : C → σ → List α → Prop) (live : σ → Prop) : Prop where
  pending : ∀ {c s w}, Holds c s w → next s w = none
  dead : ∀ {s}, ¬ live s → ∀ w, next s w = none
  turns : ∀ {c s w} (msg : List α), Holds c s w → live s → msg ≠ [] →
    -- the input is kept,
    (next s (w ++ msg) = none ∧ ∃ c', turn c msg = .leave c' ∧ Holds c' s (w ++ msg)) ∨
    -- an item is taken,
    (∃ p, next s (w ++ msg) = some p ∧ p.rest.length < msg.length ∧
      ∃ c', turn c msg = .again c' p.rest p.items ∧ Holds c' p.state []) ∨
    -- or all input is ignored from now on
    ((∀ m, next s m = none) ∧ (∀ {c w} w', Holds c s w → Holds c s w') ∧
      ∃ r, turn c msg = .again c r [] ∧ r.length < msg.length)

def Parsed.Fine (live : σ → Prop) (p : Parsed σ α β) : Prop := live p.state ∨ p.rest = []

namespace Follows
variable {next : σ → List α → Option (Parsed σ α β)} {turn : C → List α → Turn C α β}
  {Holds : C → σ → List α → Prop} {live : σ → Prop} {c : C} {s : σ} {w : List α}
  (inc : Incremental next) (follows : Follows next turn Holds live)
include inc follows

theorem loop_eq {fuel : Nat} {msg : List α} (hc : Holds c s w)
    (hfine : (parse next s (w ++ msg)).Fine live) (hfuel : msg.length < fuel) :
    ∃ c', loop turn fuel c msg = some (c', (parse next s (w ++ msg)).items) ∧
      Holds c' (parse next s (w ++ msg)).state (parse next s (w ++ msg)).rest := by
  induction fuel generalizing c s w msg with
  | zero => omega
  | succ fuel ih =>
    cases msg with
    | nil =>
      rw [append_nil, parse_none (follows.pending hc)]
      exact ⟨c, rfl, hc⟩
    | cons b msg =>
      have hlive : live s := by
        by_contra hdead
        rw [parse_none (follows.dead hdead _)] at hfine
        obtain hlive | hnil := hfine
        · exact hdead hlive
        · simp at hnil
      obtain ⟨hn, c', ht, hc'⟩ | ⟨p, hp, hlt, c', ht, hc'⟩ | ⟨hn, hall, r, ht, hlt⟩ :=
        follows.turns (b :: msg) hc hlive (cons_ne_nil _ _)
      · rw [parse_none hn]
        simp only [loop, ht]
        exact ⟨c', rfl, hc'⟩
      · rw [inc.parse_some hp] at hfine ⊢
        have hnext : (parse next p.state ([] ++ p.rest)).Fine live := hfine
        obtain ⟨c'', hloop, hc''⟩ := ih hc' hnext (by simp at hlt hfuel; omega)
        simp only [nil_append] at hloop hc''
        simp only [loop, ht, hloop]
        exact ⟨c'', rfl, hc''⟩
      · rw [parse_none (hn _)] at hfine ⊢
        have hfine' : (parse next s ([] ++ r)).Fine live := by
          rw [parse_none (hn _)]
          exact Or.inl hlive
        obtain ⟨c'', hloop, hc''⟩ := ih (hall [] hc) hfine' (by simp at hlt hfuel; omega)
        rw [parse_none (hn _)] at hloop hc''
        simp only [loop, ht, hloop]
        exact ⟨c'', rfl, hall _ hc''⟩

/-- If a turn in a state that is not `live` leaves everything as it is, a loop that meets input there
never ends. -/
theorem loop_endless {msg : List α}
    (stuck : ∀ {c s} (msg : List α), Holds c s [] → ¬ live s → turn c msg = .again c msg [])
    (hc : Holds c s w) (hw : ¬ live s → w = []) (hbad : ¬ (parse next s (w ++ msg)).Fine live)
    (fuel : Nat) : loop turn fuel c msg = none := by
  induction fuel generalizing c s w msg with
  | zero => rfl
  | succ fuel ih =>
    cases msg with
    | nil =>
      rw [append_nil, parse_none (follows.pending hc)] at hbad
      by_cases hlive : live s
      · exact absurd (Or.inl hlive) hbad
      · exact absurd (Or.inr (hw hlive)) hbad
    | cons b msg =>
      by_cases hlive : live s
      · obtain ⟨hn, -⟩ | ⟨p, hp, -, c', ht, hc'⟩ | ⟨hn, -⟩ :=
          follows.turns (b :: msg) hc hlive (cons_ne_nil _ _)
        · rw [parse_none hn] at hbad
          exact absurd (Or.inl hlive) hbad
        · rw [inc.parse_some hp] at hbad
          have hnext : ¬ (parse next p.state ([] ++ p.rest)).Fine live := hbad
          simp [loop, ht, ih hc' (fun _ => rfl) hnext, map_none]
        · rw [parse_none (hn _)] at hbad
          exact absurd (Or.inl hlive) hbad
      · obtain rfl := hw hlive
        simp [loop, stuck (b :: msg) hc hlive, ih hc hw hbad, map_none]

/-- Calls give the items of all messages together, if each gives those of its message; what is left
of them is kept. -/
theorem calls_holds (call : C → List α → Option (C × List β)) (msgs : List (List α))
    (hcall : ∀ {c s w}, ∀ msg ∈ msgs, Holds c s w → (parse next s (w ++ msg)).Fine live →
      ∃ c', call c msg = some (c', (parse next s (w ++ msg)).items) ∧
        Holds c' (parse next s (w ++ msg)).state (parse next s (w ++ msg)).rest)
    (hc : Holds c s w) (hfine : (parse next s (w ++ msgs.flatten)).Fine live) :
    ∃ c', calls call c msgs = some (c', (parse next s (w ++ msgs.flatten)).items) ∧
      Holds c' (parse next s (w ++ msgs.flatten)).state (parse next s (w ++ msgs.flatten)).rest := by
  induction msgs generalizing c s w with
  | nil =>
    rw [flatten_nil, append_nil, parse_none (follows.pending hc)]
    exact ⟨c, rfl, hc⟩
  | cons msg msgs ih =>
    rw [flatten_cons, ← append_assoc, inc.parse_append] at hfine ⊢
    -- input that is left in a state that is not live stays there
    have hone : (parse next s (w ++ msg)).Fine live := by
      by_cases hlive : live (parse next s (w ++ msg)).state
      · exact Or.inl hlive
      · rw [parse_none (follows.dead hlive _)] at hfine
        obtain hstate | hrest := hfine
        · exact absurd hstate hlive
        · exact Or.inr (append_eq_nil_iff.1 hrest).1
    obtain ⟨c', hmsg, hc'⟩ := hcall msg mem_cons_self hc hone
    obtain ⟨c'', hmsgs, hc''⟩ := ih (forall_mem_cons.1 hcall).2 hc' hfine
    refine ⟨c'', ?_, hc''⟩
    simp [calls, hmsg, hmsgs, Parsed.before]

end Follows
end Reader
end GemDroid.Lib
